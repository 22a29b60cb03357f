import FavoriteAssignments.HttpServer.Locks

/-! # The status of a PUT

A `PUT` decides between 201 and 200 with an `access` made before it has any lock.
Where no other worker creates the file in between, the answer is the one the file
gives when the writer lock is acquired. -/

namespace FavoriteAssignments.HttpServer

open RwLock ThreadCount Transition

/-! ## What a PUT knows about its file -/

def Handler.tested (uri : Uri) : Handler → Option (Uri × Bool)
  | .get => none
  | .put existed => some (uri, existed)

/-- Tested with `access`, without the writer lock yet. -/
def Pc.tested : Pc → Option (Uri × Bool)
  | .mutex_lock h uri | .lookup h uri | .create h uri | .mutex_unlock h uri _ => h.tested uri
  | .arrive h uri _ | .wait h uri _ => h.tested uri
  | _ => none

/-- Inside the writer lock, about to create the file. -/
def Pc.opening : Pc → Option (Uri × Bool)
  | .put_open existed uri _ => some (uri, existed)
  | _ => none

/-- Inside the writer lock with the file open, no status reported yet. -/
def Pc.opened : Pc → Option (Uri × Bool)
  | .put_recv existed uri _ | .put_received existed uri _ => some (uri, existed)
  | _ => none

/-- Inside the writer lock, no status reported yet. -/
def Pc.inside (p : Pc) : Option (Uri × Bool) := p.opening.or p.opened

/-- The steps of a run in which no existence test goes stale: a `PUT` creates its file
only while no other worker has tested it and found nothing, and a `PUT` that has
created its file receives the body. -/
def Undisturbed {T : Type*} (s : Server T) : Action T → Prop
  | .accept _ => True
  | .call t e =>
      match s.pc t, e with
      | .put_open _ uri _, .open_write none =>
          s.files uri = false → ∀ u, (s.pc u).tested ≠ some (uri, false)
      | .put_recv _ _ _, .conn_recv_file (some _) => s.found t = true
      | _, _ => True

variable {T : Type*} [DecidableEq T] {s mid : Server T} {t : T} {p p' : Pc} {e : Event}

/-! ## What a call changes -/

theorem effect_files (he : effect s t p e = some mid) :
    mid.files = s.files ∨
      ∃ existed uri lock, p = .put_open existed uri lock ∧ e = .open_write none ∧
        mid.files = Function.update s.files uri true := by
  unfold effect at he
  split at he <;> (try split at he) <;> cases he <;> simp [Server.setLock]

theorem effect_opens {uri : Uri} {existed : Bool}
    (he : effect s t p (.open_write none) = some mid) (hp : p.opening = some (uri, existed)) :
    mid.files uri = true := by
  cases p <;> simp_all [Pc.opening, effect]
  obtain ⟨rfl, rfl⟩ := hp
  cases he
  simp

theorem effect_history (he : effect s t p e = some mid) (htake : ∀ l, e ≠ .writer_lock l)
    (hreport : ∀ existed uri lock, p ≠ .put_received existed uri lock) :
    mid.found = s.found ∧ mid.ticket = s.ticket ∧ mid.reports = s.reports := by
  unfold effect at he
  split at he <;> (try split at he) <;> cases he <;> simp_all [Server.setLock]

theorem next_tested (h : next p e = some p') (he : effect s t p e = some mid) {uri : Uri}
    {existed : Bool} (hp : p'.tested = some (uri, existed)) :
    p.tested = some (uri, existed) ∨ s.files uri = existed := by
  cases next_cases h <;> simp_all [Pc.tested, Handler.tested, effect]
  obtain ⟨rfl, hfiles⟩ := hp
  exact hfiles

theorem next_opening (h : next p e = some p') {x : Uri × Bool} (hp : p'.opening = some x) :
    p.tested = some x ∧ ∃ l, e = .writer_lock l := by
  cases next_cases h <;> simp_all [Pc.opening, Pc.tested, Handler.tested]

theorem next_opened (h : next p e = some p') {x : Uri × Bool} (hp : p'.opened = some x) :
    p.opened = some x ∨ p.opening = some x ∧ e = .open_write none := by
  cases next_cases h <;> simp_all [Pc.opening, Pc.opened]

theorem next_of_opened (h : next p e = some p') {uri : Uri} {existed : Bool}
    (hp : p.opened = some (uri, existed)) :
    p'.opened = some (uri, existed) ∨
      (∃ lock r, p = .put_recv existed uri lock ∧ e = .conn_recv_file (some r)) ∨
      ∃ lock, p = .put_received existed uri lock := by
  cases next_cases h <;> simp_all [Pc.opened]

theorem next_put_received {existed : Bool} {uri : Uri} {lock : ℕ}
    (h : next (.put_received existed uri lock) e = some p') :
    (∃ header, e = .fprintf .PUT uri (response_get_code (putResponse existed)) header) ∧
      p' = .put_unlock lock (putResponse existed) := by
  cases next_cases h
  exact ⟨⟨_, rfl⟩, rfl⟩

/-! ## One writer at a time -/

theorem inside_writes {uri : Uri} {existed : Bool} (h : p.inside = some (uri, existed)) :
    ∃ lock, p.entry = some (uri, lock) ∧ p.writes = some lock := by
  cases p <;> simp_all [Pc.inside, Pc.opening, Pc.opened, Pc.entry, Pc.writes]

section Exclusion

variable [Fintype T]

omit [DecidableEq T] in
theorem inside_unique (ht : TableOk s) (hl : LocksOk s) {u : T} {uri : Uri} {b b' : Bool}
    (h : (s.pc t).inside = some (uri, b)) (h' : (s.pc u).inside = some (uri, b')) : t = u := by
  obtain ⟨lock, hentry, hwrites⟩ := inside_writes h
  obtain ⟨lock', hentry', hwrites'⟩ := inside_writes h'
  obtain rfl : lock = lock' := by
    have := (ht.entry t uri lock hentry).symm.trans (ht.entry u uri lock' hentry')
    simpa using this
  have hle : count s.pc (Pc.writesLock lock) ≤ 1 := by
    have := (hl.exclusive lock).writers
    have := hl.writers lock
    omega
  exact count_le_one hle (by simp [Pc.writesLock, hwrites]) (by simp [Pc.writesLock, hwrites'])

omit [DecidableEq T] in
/-- Nobody is inside for the file of the one who is. -/
theorem none_inside_of_ne (ht : TableOk s) (hl : LocksOk s) {uri : Uri} {b : Bool}
    (h : (s.pc t).inside = some (uri, b)) (u : T) (hu : u ≠ t) (b' : Bool) :
    (s.pc u).inside ≠ some (uri, b') :=
  fun h' => hu (inside_unique ht hl h' h)

omit [DecidableEq T] in
/-- A writer that enters finds nobody else inside. -/
theorem none_inside_of_enter (ht : TableOk s) (hl : LocksOk s) {k : Handler} {uri : Uri}
    {lock : ℕ} (hpc : s.pc t = .wait k uri lock) (hwaits : (s.lock lock).writerWaits = false)
    (u : T) (existed : Bool) : (s.pc u).inside ≠ some (uri, existed) := by
  intro h
  obtain ⟨lock', hentry, hwrites⟩ := inside_writes h
  obtain rfl : lock = lock' := by
    have := (ht.entry t uri lock (by simp [hpc, Pc.entry])).symm.trans
      (ht.entry u uri lock' hentry)
    simpa using this
  have hle := (writerWaits_false hwaits).1
  have hpos : 0 < count s.pc (Pc.writesLock lock) :=
    count_pos_of (show (s.pc u).writesLock lock = true by simp [Pc.writesLock, hwrites])
  have := hl.writers lock
  omega

end Exclusion

/-! ## The invariant -/

/-- The statuses reported for a URI, in the order in which its writers obtained the
lock. -/
def Server.statuses (s : Server T) (uri : Uri) : List Response := (s.reports uri).filterMap id

/-- What the locals of a worker and its place among the writers say about the file. -/
structure Informed (s : Server T) (t : T) (p : Pc) : Prop where
  tested : ∀ uri existed, p.tested = some (uri, existed) → s.files uri = existed
  opening : ∀ uri existed, p.opening = some (uri, existed) → s.files uri = existed
  opened : ∀ uri existed, p.opened = some (uri, existed) → s.files uri = true
  found : ∀ uri existed, p.inside = some (uri, existed) → s.found t = existed ∧
    ∃ earlier, s.reports uri = earlier ++ [none] ∧ s.ticket t = earlier.length

/-- Besides, a file that was missing at the start has exactly one creator. -/
structure PutOk (files : Uri → Bool) (s : Server T) : Prop where
  informed : ∀ t, Informed s t (s.pc t)
  absent : ∀ uri, files uri = false → s.files uri = false → s.statuses uri = []
  present : ∀ uri, files uri = false → s.files uri = true →
    (∃ k, s.statuses uri = .CREATED :: List.replicate k .OK ∧
      ∀ t existed, (s.pc t).opened = some (uri, existed) → existed = true) ∨
    (s.statuses uri = [] ∧ ∃ t, (s.pc t).opened = some (uri, false))

variable {files : Uri → Bool}

omit [DecidableEq T] in
theorem inside_of_opening {x : Uri × Bool} (h : p.opening = some x) : p.inside = some x := by
  simp [Pc.inside, h]

omit [DecidableEq T] in
theorem inside_of_opened {x : Uri × Bool} (h : p.opened = some x) : p.inside = some x := by
  cases p <;> simp_all [Pc.inside, Pc.opening, Pc.opened]

/-- Where the moving worker counts as before, so does every worker. -/
theorem opened_update_iff {x : Uri × Bool}
    (h : p.opened = some x ↔ (s.pc t).opened = some x) (u : T) :
    (Function.update s.pc t p u).opened = some x ↔ (s.pc u).opened = some x := by
  by_cases hu : u = t
  · subst hu
    rw [Function.update_self, h]
  · rw [Function.update_of_ne hu]

omit [DecidableEq T] in
/-- A worker stays informed while nobody touches the file it is about. -/
theorem Informed.transport (h : Informed s t p) (hfound : mid.found t = s.found t)
    (hticket : mid.ticket t = s.ticket t)
    (htested : ∀ uri b, p.tested = some (uri, b) → mid.files uri = s.files uri)
    (hfiles : ∀ uri b, p.inside = some (uri, b) → mid.files uri = s.files uri)
    (hreports : ∀ uri b, p.inside = some (uri, b) → mid.reports uri = s.reports uri) :
    Informed mid t p where
  tested := fun uri b hp => (htested uri b hp).trans (h.tested uri b hp)
  opening := fun uri b hp => (hfiles uri b (inside_of_opening hp)).trans (h.opening uri b hp)
  opened := fun uri b hp => (hfiles uri b (inside_of_opened hp)).trans (h.opened uri b hp)
  found := by
    intro uri b hp
    rw [hfound, hticket, hreports uri b hp]
    exact h.found uri b hp

omit [DecidableEq T] in
/-- Without a test of its own, and outside the writer lock, a worker claims nothing. -/
theorem Informed.outside (htested : p.tested = none) (hinside : p.inside = none) :
    Informed s t p where
  tested := fun uri b hp => by simp [htested] at hp
  opening := fun uri b hp => by simpa [hinside] using inside_of_opening hp
  opened := fun uri b hp => by simpa [hinside] using inside_of_opened hp
  found := fun uri b hp => by simp [hinside] at hp

theorem informed_update (hself : Informed mid t p)
    (hothers : ∀ u, u ≠ t → Informed mid u (s.pc u)) (u : T) :
    Informed mid u (Function.update s.pc t p u) := by
  by_cases hu : u = t
  · subst hu
    rwa [Function.update_self]
  · rw [Function.update_of_ne hu]
    exact hothers u hu

/-! ## The calls that touch the files and the reports -/

theorem putOk_enter [Fintype T] (ht : TableOk s) (hl : LocksOk s) (h : PutOk files s) {l : ℕ}
    (hnext : next (s.pc t) (.writer_lock l) = some p)
    (heffect : effect s t (s.pc t) (.writer_lock l) = some mid) (calls : T → List Event) :
    PutOk files { mid with pc := Function.update s.pc t p, calls := calls } := by
  obtain ⟨existed, uri, hpc, rfl⟩ := next_writer_lock hnext
  have hwaits := effect_writer_lock hnext heffect
  have hnone := none_inside_of_enter ht hl hpc hwaits
  have htested := (h.informed t).tested uri existed (by simp [hpc, Pc.tested, Handler.tested])
  rw [hpc] at heffect
  simp only [effect, hwaits] at heffect
  cases heffect
  have hopened : ∀ x u, (Function.update s.pc t (.put_open existed uri l) u).opened = some x ↔
      (s.pc u).opened = some x :=
    fun x => opened_update_iff (by simp [hpc, Pc.opened])
  have hstatuses : ∀ uri', (Function.update s.reports uri (s.reports uri ++ [none]) uri').filterMap
      id = s.statuses uri' := by
    intro uri'
    by_cases hu : uri' = uri
    · subst hu
      simp [Server.statuses]
    · simp [Server.statuses, hu]
  refine ⟨informed_update ?_ fun u hu => ?_, ?_, ?_⟩
  · refine ⟨?_, ?_, ?_, ?_⟩
    · simp [Pc.tested]
    · simpa [Pc.opening] using htested
    · simp [Pc.opened]
    · simp [Pc.inside, Pc.opening, htested]
  · refine (h.informed u).transport (by simp [hu]) (by simp [hu]) (by simp) (by simp) ?_
    intro uri' b hinside
    have : uri' ≠ uri := by
      rintro rfl
      exact hnone u b hinside
    simp [this]
  · intro uri' h0 hfile
    exact (hstatuses uri').trans (h.absent uri' h0 hfile)
  · intro uri' h0 hfile
    simp only [Server.statuses, hopened, hstatuses]
    exact h.present uri' h0 hfile

theorem putOk_create [Fintype T] (ht : TableOk s) (hl : LocksOk s) (h : PutOk files s)
    {existed : Bool} {uri : Uri} {lock : ℕ} (hpc : s.pc t = .put_open existed uri lock)
    (hmissing : s.files uri = false) (hundisturbed : ∀ u, (s.pc u).tested ≠ some (uri, false))
    (calls : T → List Event) :
    PutOk files { s with
      files := Function.update s.files uri true
      pc := Function.update s.pc t (.put_recv existed uri lock)
      calls := calls } := by
  have hopening : (s.pc t).opening = some (uri, existed) := by simp [hpc, Pc.opening]
  have hexisted : existed = false := by
    rw [← (h.informed t).opening uri existed hopening, hmissing]
  have halone := none_inside_of_ne ht hl (inside_of_opening hopening)
  have hold : ∀ uri', uri' ≠ uri → ∀ u b,
      ((Function.update s.pc t (.put_recv existed uri lock) u).opened = some (uri', b) ↔
        (s.pc u).opened = some (uri', b)) := by
    intro uri' hne u b
    exact opened_update_iff (by simp [hpc, Pc.opened, Ne.symm hne]) u
  refine ⟨informed_update ?_ fun u hu => ?_, ?_, ?_⟩
  · refine ⟨?_, ?_, ?_, ?_⟩
    · simp [Pc.tested]
    · simp [Pc.opening]
    · simp [Pc.opened]
    · simpa [Pc.inside, Pc.opening, Pc.opened] using
        (h.informed t).found uri existed (inside_of_opening hopening)
  · refine (h.informed u).transport rfl rfl ?_ ?_ (fun _ _ _ => rfl)
    · intro uri' b htested
      have : uri' ≠ uri := by
        rintro rfl
        have := (h.informed u).tested uri' b htested
        exact hundisturbed u (by rw [htested, ← this, hmissing])
      simp [this]
    · intro uri' b hinside
      have : uri' ≠ uri := by
        rintro rfl
        exact halone u hu b hinside
      simp [this]
  · intro uri' h0 hfile
    by_cases hne : uri' = uri
    · subst hne
      simp at hfile
    · exact h.absent uri' h0 (by simpa [hne] using hfile)
  · intro uri' h0 hfile
    by_cases hne : uri' = uri
    · subst hne
      exact Or.inr ⟨h.absent uri' h0 hmissing, t, by simp [Pc.opened, hexisted]⟩
    · have hfile' : s.files uri' = true := by simpa [hne] using hfile
      simp only [Server.statuses, hold uri' hne]
      exact h.present uri' h0 hfile'

omit [DecidableEq T] in
/-- With the report of the only opened worker the statuses are one `CREATED`, then `OK`s. -/
theorem PutOk.statuses_report (h : PutOk files s) {uri : Uri} {existed : Bool}
    (h0 : files uri = false) (hopened : (s.pc t).opened = some (uri, existed))
    (hother : ∀ u, u ≠ t → ∀ b, (s.pc u).opened ≠ some (uri, b)) :
    ∃ k, s.statuses uri ++ [putResponse existed] = .CREATED :: List.replicate k .OK := by
  rcases h.present uri h0 ((h.informed t).opened uri existed hopened) with
    ⟨k, hk, hall⟩ | ⟨hempty, u, hu⟩
  · obtain rfl := hall t existed hopened
    refine ⟨k + 1, ?_⟩
    rw [hk, List.replicate_succ']
    rfl
  · obtain rfl : u = t := by
      by_contra hne
      exact hother u hne false hu
    obtain rfl : existed = false := by simpa [hopened] using hu
    refine ⟨0, ?_⟩
    rw [hempty]
    rfl

theorem putOk_report [Fintype T] (ht : TableOk s) (hl : LocksOk s) (h : PutOk files s)
    {existed : Bool} {uri : Uri} {lock : ℕ} (hpc : s.pc t = .put_received existed uri lock)
    (calls : T → List Event) :
    PutOk files { s with
      reports := Function.update s.reports uri
        ((s.reports uri).set (s.ticket t) (some (putResponse existed)))
      pc := Function.update s.pc t (.put_unlock lock (putResponse existed))
      calls := calls } := by
  have hopened : (s.pc t).opened = some (uri, existed) := by simp [hpc, Pc.opened]
  have halone := none_inside_of_ne ht hl (inside_of_opened hopened)
  obtain ⟨-, earlier, hearlier, hticket⟩ :=
    (h.informed t).found uri existed (inside_of_opened hopened)
  have hfile := (h.informed t).opened uri existed hopened
  have hset : (s.reports uri).set (s.ticket t) (some (putResponse existed)) =
      earlier ++ [some (putResponse existed)] := by
    simp [hearlier, hticket]
  have hself : (earlier ++ [some (putResponse existed)]).filterMap id =
      s.statuses uri ++ [putResponse existed] := by
    simp [Server.statuses, hearlier]
  have hother : ∀ u, u ≠ t → ∀ b, (s.pc u).opened ≠ some (uri, b) :=
    fun u hu b hopened => halone u hu b (inside_of_opened hopened)
  have hgone : ∀ u b,
      (Function.update s.pc t (.put_unlock lock (putResponse existed)) u).opened ≠
        some (uri, b) := by
    intro u b
    by_cases hu : u = t
    · subst hu
      simp [Pc.opened]
    · simpa [hu] using hother u hu b
  refine ⟨informed_update (Informed.outside rfl rfl) fun u hu => ?_, ?_, ?_⟩
  · refine (h.informed u).transport rfl rfl (fun _ _ _ => rfl) (fun _ _ _ => rfl) ?_
    intro uri' b hinside
    have : uri' ≠ uri := by
      rintro rfl
      exact halone u hu b hinside
    simp [this]
  · intro uri' h0 hmissing
    have hne : uri' ≠ uri := by
      rintro rfl
      simp [hfile] at hmissing
    simpa [Server.statuses, hne] using h.absent uri' h0 hmissing
  · intro uri' h0 hfile'
    by_cases hne : uri' = uri
    · subst hne
      refine Or.inl ?_
      simp only [Server.statuses, Function.update_self, hset, hself]
      obtain ⟨k, hk⟩ := h.statuses_report h0 hopened hother
      exact ⟨k, hk, fun u b hu => absurd hu (hgone u b)⟩
    · have hold : ∀ u b,
          ((Function.update s.pc t (.put_unlock lock (putResponse existed)) u).opened =
            some (uri', b) ↔ (s.pc u).opened = some (uri', b)) := by
        intro u b
        exact opened_update_iff (by simp [hpc, Pc.opened, Ne.symm hne]) u
      simpa [Server.statuses, hne, hold] using h.present uri' h0 hfile'

/-- Every other call leaves the file alone. -/
theorem putOk_move (h : PutOk files s) (hnext : next (s.pc t) e = some p)
    (heffect : effect s t (s.pc t) e = some mid) (hok : Undisturbed s (.call t e))
    (hfiles : mid.files = s.files) (henter : ∀ l, e ≠ .writer_lock l)
    (hreport : ∀ existed uri lock, s.pc t ≠ .put_received existed uri lock)
    (calls : T → List Event) :
    PutOk files { mid with pc := Function.update s.pc t p, calls := calls } := by
  obtain ⟨hfound, hticket, hreports⟩ := effect_history heffect henter hreport
  have hopening : ∀ x, p.opening ≠ some x := by
    intro x hx
    obtain ⟨-, l, hl⟩ := next_opening hnext hx
    exact henter l hl
  have hopened : ∀ uri b, p.opened = some (uri, b) → (s.pc t).inside = some (uri, b) ∧
      s.files uri = true ∧ ((s.pc t).opened = some (uri, b) ∨ b = true) := by
    intro uri b hp
    rcases next_opened hnext hp with hold | ⟨hold, he⟩
    · exact ⟨inside_of_opened hold, (h.informed t).opened uri b hold, Or.inl hold⟩
    · have htrue : s.files uri = true := by
        subst he
        rw [← hfiles]
        exact effect_opens heffect hold
      have hb := (h.informed t).opening uri b hold
      exact ⟨inside_of_opening hold, htrue, Or.inr (hb.symm.trans htrue)⟩
  refine ⟨informed_update ?_ fun u _ => ?_, ?_, ?_⟩
  · refine ⟨?_, ?_, ?_, ?_⟩
    · intro uri b hp
      simp only [hfiles]
      rcases next_tested hnext heffect hp with hold | hold
      · exact (h.informed t).tested uri b hold
      · exact hold
    · intro uri b hp
      exact absurd hp (hopening _)
    · intro uri b hp
      simpa only [hfiles] using (hopened uri b hp).2.1
    · intro uri b hp
      have hp' : p.opening = none ∧ p.opened = some (uri, b) := by
        simpa [Pc.inside, Option.or_eq_some_iff, hopening] using hp
      simpa only [hfound, hticket, hreports] using
        (h.informed t).found uri b (hopened uri b hp'.2).1
  · exact (h.informed u).transport (by rw [hfound]) (by rw [hticket]) (by simp [hfiles])
      (by simp [hfiles]) (by simp [hreports])
  · intro uri h0 hfile
    simp only [Server.statuses, hreports]
    exact h.absent uri h0 (by simpa [hfiles] using hfile)
  · intro uri h0 hfile
    simp only [Server.statuses, hreports]
    have hfile' : s.files uri = true := by simpa [hfiles] using hfile
    rcases h.present uri h0 hfile' with ⟨k, hk, hall⟩ | ⟨hempty, u, hu⟩
    · refine Or.inl ⟨k, hk, ?_⟩
      intro u b hub
      by_cases hut : u = t
      · subst hut
        rcases (hopened uri b (by simpa using hub)).2.2 with hold | hb
        · exact hall u b hold
        · exact hb
      · exact hall u b (by simpa [hut] using hub)
    · refine Or.inr ⟨hempty, u, ?_⟩
      by_cases hut : u = t
      · subst hut
        rcases next_of_opened hnext hu with hstays | ⟨lock, r, hpc, rfl⟩ | ⟨lock, hpc⟩
        · simpa using hstays
        · -- the body of a created file is received
          have htrue : s.found u = true := by simpa [Undisturbed, hpc] using hok
          have := ((h.informed u).found uri false (inside_of_opened hu)).1
          simp [htrue] at this
        · exact absurd hpc (hreport _ _ _)
      · simpa [hut] using hu

theorem putOk_accept (h : PutOk files s) (hpc : s.pc t = .returned) (calls : T → List Event) :
    PutOk files { s with pc := Function.update s.pc t .start, calls := calls } := by
  have hopened : ∀ x u, (Function.update s.pc t .start u).opened = some x ↔
      (s.pc u).opened = some x :=
    fun x => opened_update_iff (by simp [hpc, Pc.opened])
  refine ⟨informed_update (Informed.outside rfl rfl) fun u _ => ?_, h.absent, ?_⟩
  · exact (h.informed u).transport rfl rfl (fun _ _ _ => rfl) (fun _ _ _ => rfl)
      (fun _ _ _ => rfl)
  · simp only [hopened]
    exact h.present

theorem step_putOk [Fintype T] {a : Action T} {s' : Server T} (ht : TableOk s) (hl : LocksOk s)
    (h : PutOk files s) (hok : Undisturbed s a) (hs : Step s a s') : PutOk files s' := by
  cases a with
  | accept t =>
      obtain ⟨hpc, rfl⟩ := step_accept hs
      exact putOk_accept h hpc _
  | call t e =>
      obtain ⟨p, mid, hnext, heffect, rfl⟩ := step_call hs
      by_cases henter : ∃ l, e = .writer_lock l
      · obtain ⟨l, rfl⟩ := henter
        exact putOk_enter ht hl h hnext heffect _
      by_cases hreport : ∃ existed uri lock, s.pc t = .put_received existed uri lock
      · obtain ⟨existed, uri, lock, hpc⟩ := hreport
        obtain ⟨⟨header, rfl⟩, rfl⟩ := next_put_received (hpc ▸ hnext)
        rw [hpc] at heffect
        cases heffect
        exact putOk_report ht hl h hpc _
      push Not at henter hreport
      rcases effect_files heffect with hfiles | ⟨existed, uri, lock, hpc, rfl, hfiles⟩
      · exact putOk_move h hnext heffect hok hfiles henter hreport _
      cases hmissing : s.files uri with
      | true =>
          refine putOk_move h hnext heffect hok ?_ henter hreport _
          rw [hfiles, ← hmissing, Function.update_eq_self]
      | false =>
          have hundisturbed : ∀ u, (s.pc u).tested ≠ some (uri, false) := by
            simp only [Undisturbed, hpc] at hok
            exact hok hmissing
          rw [hpc] at hnext heffect
          obtain rfl : p = .put_recv existed uri lock := by
            cases next_cases hnext
            rfl
          cases heffect
          exact putOk_create ht hl h hpc hmissing hundisturbed _

/-! ## The answer -/

/-- The responses sent by a list of calls. -/
def sent (calls : List Event) : List Response :=
  calls.filterMap fun
    | .conn_send_response response => some response
    | _ => none

/-- The status codes logged by a list of calls. -/
def logged (calls : List Event) : List ℕ :=
  calls.filterMap fun
    | .fprintf _ _ code _ => some code
    | _ => none

/-- What a worker that received a body has said so far. -/
def Answers (found : Bool) (calls : List Event) : Pc → Prop
  | .put_received _ _ _ => sent calls = [] ∧ logged calls = []
  | .put_unlock _ response | .put_close response | .finish response =>
      .conn_recv_file none ∈ calls → response = putResponse found ∧ sent calls = [] ∧
        logged calls = [response_get_code response]
  | .delete | .returned =>
      .conn_recv_file none ∈ calls → sent calls = [putResponse found] ∧
        logged calls = [response_get_code (putResponse found)]
  | .parse_failed _ | .not_implemented | .put_error _ _ => .conn_recv_file none ∉ calls
  | .get_open _ _ | .get_fstat _ _ | .get_send _ _ | .get_sent _ _ | .get_unlock _ | .get_close
  | .get_error _ _ _ | .out_send _ _ | .out_unlock _ => .conn_recv_file none ∉ calls
  | _ => .conn_recv_file none ∉ calls ∧ sent calls = [] ∧ logged calls = []

theorem next_answers {found : Bool} {calls : List Event} (h : next p e = some p')
    (hreport : ∀ existed uri lock, p = .put_received existed uri lock → found = existed)
    (ha : Answers found calls p) : Answers found (calls ++ [e]) p' := by
  cases next_cases h <;> simp_all [Answers, sent, logged, List.filterMap_append]

/-- Only entering a writer lock reads the file anew. -/
theorem effect_found (he : effect s t p e = some mid) :
    mid.found = s.found ∨
      ((∃ l, e = .writer_lock l) ∧ ∃ existed, mid.found = Function.update s.found t existed) := by
  unfold effect at he
  split at he <;> (try split at he) <;> cases he <;> simp [Server.setLock]

theorem step_answers {a : Action T} {s' : Server T} (hput : PutOk files s) (hs : Step s a s')
    (h : ∀ t, Answers (s.found t) (s.calls t) (s.pc t)) (t : T) :
    Answers (s'.found t) (s'.calls t) (s'.pc t) := by
  cases a with
  | accept u =>
      obtain ⟨-, rfl⟩ := step_accept hs
      by_cases htu : t = u
      · subst htu
        simp [Answers, sent, logged]
      · simpa [htu] using h t
  | call u e =>
      obtain ⟨p, mid, hnext, heffect, rfl⟩ := step_call hs
      by_cases htu : t = u
      · subst htu
        simp only [Function.update_self]
        have hold := next_answers hnext
          (fun existed uri lock hpc => ((hput.informed t).found uri existed
            (by simp [hpc, Pc.inside, Pc.opening, Pc.opened])).1) (h t)
        rcases effect_found heffect with hfound | ⟨⟨l, rfl⟩, existed, hfound⟩
        · rwa [hfound]
        · -- the status of a `PUT` that has just entered is open
          obtain ⟨existed', uri, -, rfl⟩ := next_writer_lock hnext
          exact hold
      · simp only [Function.update_of_ne htu]
        rcases effect_found heffect with hfound | ⟨-, existed, hfound⟩
        · simpa [hfound] using h t
        · simpa [hfound, htu] using h t

theorem reaches_putOk [Fintype T] (h : Reaches files Undisturbed s) :
    PutOk files s ∧ ∀ t, Answers (s.found t) (s.calls t) (s.pc t) := by
  have hall : (TableOk s ∧ LocksOk s) ∧ PutOk files s ∧
      ∀ t, Answers (s.found t) (s.calls t) (s.pc t) := by
    refine Reachable.invariant (P := fun s => (TableOk s ∧ LocksOk s) ∧ PutOk files s ∧
      ∀ t, Answers (s.found t) (s.calls t) (s.pc t)) h ?_ ?_
    · rintro _ rfl
      refine ⟨⟨initial_tableOk files, initial_locksOk files⟩, ⟨?_, ?_, ?_⟩, ?_⟩
      · intro t
        refine ⟨?_, ?_, ?_, ?_⟩ <;>
          simp [initial, Pc.tested, Pc.opening, Pc.opened, Pc.inside]
      · simp [initial, Server.statuses]
      · simp_all [initial]
      · simp [initial, Answers]
    · rintro s a s' ⟨⟨ht, hl⟩, hput, hanswers⟩ hok hs
      exact ⟨⟨step_tableOk hs ht, step_locksOk hs ht hl⟩, step_putOk ht hl hput hok hs,
        step_answers hput hs hanswers⟩
  exact hall.2

/-- A successful `PUT` answers and logs 201 where its file was missing when its writer
lock was acquired and 200 where it was there; of the successful `PUT`s to a file that
was missing at the start, in the order of their locks, exactly the first reports 201. -/
theorem put_status [Fintype T] (h : Reaches files Undisturbed s) :
    (∀ t, s.pc t = .returned → .open_write none ∈ s.calls t →
      .conn_recv_file none ∈ s.calls t →
        sent (s.calls t) = [if s.found t then .OK else .CREATED] ∧
        logged (s.calls t) = [if s.found t then 200 else 201]) ∧
    ∀ uri, files uri = false →
      s.statuses uri = [] ∨ ∃ k, s.statuses uri = .CREATED :: List.replicate k .OK := by
  obtain ⟨hput, hanswers⟩ := reaches_putOk h
  refine ⟨?_, ?_⟩
  · intro t hpc _ hreceived
    have ha := hanswers t
    rw [hpc] at ha
    obtain ⟨hsent, hlogged⟩ := ha hreceived
    refine ⟨hsent, hlogged.trans ?_⟩
    cases s.found t <;> rfl
  · intro uri h0
    cases hfile : s.files uri with
    | false => exact Or.inl (hput.absent uri h0 hfile)
    | true =>
        rcases hput.present uri h0 hfile with ⟨k, hk, -⟩ | ⟨hempty, -⟩
        · exact Or.inr ⟨k, hk⟩
        · exact Or.inl hempty

/-! ## Two workers -/

instance [Fintype T] (s : Server T) (a : Action T) : Decidable (Undisturbed s a) := by
  unfold Undisturbed
  split
  · infer_instance
  · split <;> infer_instance

/-- Another `PUT` to `a` that finds the file and its lock. -/
def rewritingPut : List Event :=
  createdPut.take 3 ++ [.access true, .pthread_mutex_lock, .hashLockLookup (some 0),
    .pthread_mutex_unlock, .writer_arrives 0, .writer_lock 0, .open_write none,
    .conn_recv_file none, .fprintf .PUT ['a'] 200 none, .writer_unlock 0, .close,
    .conn_send_response .OK, .conn_delete]

/-- The second `PUT` comes while the first, which has created the file, receives its body, and
waits for the lock. -/
def orderedPuts : List (Action (Fin 2)) :=
  (.accept 0 :: (createdPut.take 11).map (.call 0)) ++
    (.accept 1 :: (rewritingPut.take 8).map (.call 1)) ++
    (createdPut.drop 11).map (.call 0) ++ (rewritingPut.drop 8).map (.call 1)

/-- The first `PUT` reports 201 and the second 200. -/
theorem put_status_ordered : ∃ s : Server (Fin 2), Reaches (fun _ => false) Undisturbed s ∧
    (sent (s.calls 0) = [.CREATED] ∧ logged (s.calls 0) = [201]) ∧
    (sent (s.calls 1) = [.OK] ∧ logged (s.calls 1) = [200]) ∧
    ∃ k, s.statuses ['a'] = .CREATED :: List.replicate k .OK := by
  obtain ⟨s, hs, hf⟩ := reaches_run (fun _ => false) Undisturbed orderedPuts
    (fun s => s.pc 0 == .returned && s.calls 0 == createdPut && !s.found 0 &&
      s.pc 1 == .returned && s.calls 1 == rewritingPut && s.found 1 && s.statuses ['a'] != [])
    (by decide)
  simp only [Bool.and_eq_true, beq_iff_eq, Bool.not_eq_true', bne_iff_ne] at hf
  obtain ⟨⟨⟨⟨⟨⟨hpc0, hcalls0⟩, hfound0⟩, hpc1⟩, hcalls1⟩, hfound1⟩, hstatuses⟩ := hf
  obtain ⟨hanswer, horder⟩ := put_status hs
  have hfirst := hanswer 0 hpc0 (by rw [hcalls0]; decide) (by rw [hcalls0]; decide)
  have hsecond := hanswer 1 hpc1 (by rw [hcalls1]; decide) (by rw [hcalls1]; decide)
  exact ⟨s, hs, by simpa [hfound0] using hfirst, by simpa [hfound1] using hsecond,
    (horder ['a'] rfl).resolve_left hstatuses⟩

/-- Two `PUT`s to `a` test for it before either takes the lock: the first ends, then
the second. -/
def overlappingPuts : List (Action (Fin 2)) :=
  (.accept 0 :: (createdPut.take 4).map (.call 0)) ++
    (.accept 1 :: (createdPut.take 4).map (.call 1)) ++
    (createdPut.drop 4).map (.call 0) ++
    ([.pthread_mutex_lock, .hashLockLookup (some 0), .pthread_mutex_unlock].map (.call 1)) ++
    (createdPut.drop 8).map (.call 1)

/-- Both `PUT`s report 201, the second for a file that was there when it entered. -/
theorem overlapping_puts_both_create : ∃ s : Server (Fin 2),
    Reaches (fun _ => false) Always s ∧ s.pc 1 = .returned ∧
    .open_write none ∈ s.calls 1 ∧ .conn_recv_file none ∈ s.calls 1 ∧ s.found 1 = true ∧
    sent (s.calls 1) = [.CREATED] ∧ logged (s.calls 1) = [201] ∧
    s.statuses ['a'] = [.CREATED, .CREATED] := by
  obtain ⟨s, hs, hf⟩ := reaches_run (fun _ => false) Always overlappingPuts
    (fun s => s.pc 1 == .returned && decide (.open_write none ∈ s.calls 1) &&
      decide (.conn_recv_file none ∈ s.calls 1) && s.found 1 && sent (s.calls 1) == [.CREATED] &&
      logged (s.calls 1) == [201] && s.statuses ['a'] == [.CREATED, .CREATED])
    (by decide)
  simp only [Bool.and_eq_true, beq_iff_eq, decide_eq_true_eq] at hf
  obtain ⟨⟨⟨⟨⟨⟨h1, h2⟩, h3⟩, h4⟩, h5⟩, h6⟩, h7⟩ := hf
  exact ⟨s, hs, h1, h2, h3, h4, h5, h6, h7⟩

end FavoriteAssignments.HttpServer
