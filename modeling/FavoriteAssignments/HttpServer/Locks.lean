import FavoriteAssignments.HttpServer.Balance
import FavoriteAssignments.HttpServer.Server
import FavoriteAssignments.RwLock.Exclusion

/-! # The locks of the server

In every reachable state a lock counts the workers inside it, and besides them the
writers that failed to open their file. -/

namespace FavoriteAssignments.HttpServer

open RwLock ThreadCount Transition

variable {T : Type*} [DecidableEq T]

/-! ## What a call does -/

theorem step_call {s s' : Server T} {t : T} {e : Event} (h : Step s (.call t e) s') :
    ∃ p mid, next (s.pc t) e = some p ∧ effect s t (s.pc t) e = some mid ∧
      s' = { mid with
        pc := Function.update s.pc t p
        calls := Function.update s.calls t (s.calls t ++ [e]) } := by
  simp only [Step, step] at h
  split at h
  · next p mid hnext heffect => exact ⟨p, mid, hnext, heffect, (Option.some.inj h).symm⟩
  · cases h

theorem step_accept {s s' : Server T} {t : T} (h : Step s (.accept t) s') :
    s.pc t = .returned ∧
      s' = { s with
        pc := Function.update s.pc t .start
        calls := Function.update s.calls t [] } := by
  simp only [Step, step] at h
  split at h
  · next hpc => exact ⟨hpc, (Option.some.inj h).symm⟩
  · cases h

variable {s mid : Server T} {t : T} {p p' : Pc} {e : Event}

/-- The lock a call works on and what it does to it. -/
def Event.onLock : Event → Option (ℕ × (Rwlock → Rwlock))
  | .attach l garbage => some (l, fun _ => rwlock_new .N_WAY 1 garbage)
  | .reader_arrives l => some (l, Rwlock.readerArrives)
  | .reader_lock l => some (l, Rwlock.readerEnters)
  | .reader_unlock l => some (l, Rwlock.readerLeaves)
  | .writer_arrives l => some (l, Rwlock.writerArrives)
  | .writer_lock l => some (l, Rwlock.writerEnters)
  | .writer_unlock l => some (l, Rwlock.writerLeaves)
  | _ => none

theorem next_writer_lock {l : ℕ} (h : next p (.writer_lock l) = some p') :
    ∃ existed uri, p = .wait (.put existed) uri l ∧ p' = .put_open existed uri l := by
  cases next_cases h
  exact ⟨_, _, rfl, rfl⟩

theorem next_attach {l : ℕ} {garbage : BitVec 32}
    (h : next p (.attach l garbage) = some p') :
    ∃ k uri, p = .create k uri ∧ p' = .mutex_unlock k uri l := by
  cases next_cases h
  exact ⟨_, _, rfl, rfl⟩

attribute [local simp] effect in
theorem effect_writer_lock {l : ℕ} (h : next p (.writer_lock l) = some p')
    (he : effect s t p (.writer_lock l) = some mid) : (s.lock l).writerWaits = false := by
  obtain ⟨existed, uri, rfl, -⟩ := next_writer_lock h
  by_contra hwaits
  simp [hwaits] at he

theorem effect_lock (h : next p e = some p') (he : effect s t p e = some mid) :
    mid.lock = match e.onLock with
      | some (l, f) => Function.update s.lock l (f (s.lock l))
      | none => s.lock := by
  cases e with
  | attach l garbage =>
      obtain ⟨k, uri, rfl, -⟩ := next_attach h
      simp only [effect] at he
      split at he <;> cases he
      rfl
  | writer_lock l =>
      obtain ⟨existed, uri, rfl, -⟩ := next_writer_lock h
      simp only [effect] at he
      split at he <;> cases he
      rfl
  | _ =>
      unfold effect at he
      split at he <;> (try split at he) <;> cases he <;> simp_all [Event.onLock, Server.setLock]

/-- `attach` is given the next unused address. -/
theorem effect_attach {l : ℕ} {garbage : BitVec 32} (h : next p (.attach l garbage) = some p')
    (he : effect s t p (.attach l garbage) = some mid) : l = s.fresh := by
  obtain ⟨k, uri, rfl, -⟩ := next_attach h
  simp only [effect] at he
  split at he
  · assumption
  · cases he

theorem effect_reader_lock {l : ℕ} (he : effect s t p (.reader_lock l) = some mid) :
    (s.lock l).readerWaits = false := by
  unfold effect at he
  split at he <;> (try split at he) <;> cases he <;> simp_all

/-- A call moves the counters of a lock by what it takes and releases. -/
theorem effect_counters (h : next p e = some p') (he : effect s t p e = some mid)
    (hfresh : (s.lock s.fresh).readers = 0 ∧ (s.lock s.fresh).writers = 0) (l : ℕ) :
    (mid.lock l).readers + (decide (e = .reader_unlock l)).toNat =
        (s.lock l).readers + (decide (e = .reader_lock l)).toNat ∧
      (mid.lock l).writers + (decide (e = .writer_unlock l)).toNat =
        (s.lock l).writers + (decide (e = .writer_lock l)).toNat := by
  rw [effect_lock h he]
  cases e with
  | attach l' garbage =>
      obtain rfl := effect_attach h he
      by_cases hl : l = s.fresh <;> simp [Event.onLock, hl, hfresh, rwlock_new]
  | reader_arrives l' | reader_lock l' | reader_unlock l' | writer_arrives l' | writer_lock l'
  | writer_unlock l' =>
      by_cases hl : l' = l
      · subst hl
        simp [Event.onLock, Rwlock.readerArrives, Rwlock.readerEnters, Rwlock.readerLeaves,
          Rwlock.writerArrives, Rwlock.writerEnters, Rwlock.writerLeaves]
      · simp [Event.onLock, hl, Ne.symm hl]
  | _ => simp [Event.onLock]

theorem effect_openFailures (he : effect s t p e = some mid) (l : ℕ) :
    mid.openFailures l = s.openFailures l + (decide (leak p e = some l)).toNat := by
  unfold effect at he
  split at he <;> (try split at he) <;> cases he <;>
    simp_all [leak, Server.setLock, Function.update_apply]
  · split <;> simp_all
    omega

/-! ## The table -/

/-- Between `pthread_mutex_lock` and `pthread_mutex_unlock`. -/
def Pc.critical : Pc → Bool
  | .lookup _ _ | .create _ _ | .mutex_unlock _ _ _ => true
  | _ => false

/-- The URI and the lock found for it. -/
def Pc.entry : Pc → Option (Uri × ℕ)
  | .mutex_unlock _ uri lock | .arrive _ uri lock | .wait _ uri lock => some (uri, lock)
  | .get_open uri lock | .get_fstat uri lock | .get_send uri lock => some (uri, lock)
  | .get_sent uri lock | .get_error uri lock _ => some (uri, lock)
  | .put_open _ uri lock | .put_recv _ uri lock | .put_received _ uri lock => some (uri, lock)
  | _ => none

theorem effect_mutex (h : next p e = some p') (he : effect s t p e = some mid) :
    (s.mutex = none ∧ mid.mutex = some t ∧ p'.critical = true) ∨
      (p.critical = true ∧ mid.mutex = none ∧ p'.critical = false) ∨
      (mid.mutex = s.mutex ∧ p'.critical = p.critical) := by
  cases next_cases h <;> simp only [effect] at he <;> (try split at he) <;> cases he <;>
    simp_all [Pc.critical, Server.setLock]

theorem effect_hash (h : next p e = some p') (he : effect s t p e = some mid) :
    (∃ k uri, p = .create k uri ∧ p' = .mutex_unlock k uri s.fresh ∧
        mid.hash = attach s.hash uri s.fresh ∧ mid.fresh = s.fresh + 1) ∨
      ((∀ k uri, p ≠ .create k uri) ∧ mid.hash = s.hash ∧ mid.fresh = s.fresh) := by
  cases next_cases h <;> simp only [effect] at he <;> (try split at he) <;> cases he <;>
    simp_all [Server.setLock]

/-- The lock a worker goes on with is the one its lookup has returned. -/
theorem effect_entry (h : next p e = some p') (he : effect s t p e = some mid)
    (hp : ∀ k uri, p ≠ .create k uri) {uri : Uri} {lock : ℕ}
    (hentry : p'.entry = some (uri, lock)) :
    p.entry = some (uri, lock) ∨ hashLockLookup s.hash.nodes uri = some lock := by
  cases next_cases h <;> simp_all [Pc.entry, effect]

theorem effect_create (h : next p e = some p') (he : effect s t p e = some mid) {k : Handler}
    {uri : Uri} (hp : p' = .create k uri) : hashLockLookup s.hash.nodes uri = none := by
  subst hp
  cases next_cases h
  simp only [effect] at he
  split at he
  · next hlookup => exact hlookup.symm
  · cases he

/-- A held lock was looked up before. -/
theorem next_holds (h : next p e = some p') {lock : ℕ}
    (hp : p'.reads = some lock ∨ p'.writes = some lock) :
    p.reads = some lock ∨ p.writes = some lock ∨ ∃ uri, p.entry = some (uri, lock) := by
  cases next_cases h <;> simp_all [Pc.reads, Pc.writes, Pc.entry]

theorem leak_entry {lock : ℕ} (h : leak p e = some lock) : ∃ uri, p.entry = some (uri, lock) := by
  unfold leak at h
  split at h <;> simp_all [Pc.entry]

theorem hashLockLookup_append {nodes : List (Uri × ℕ)} {u uri : Uri} {lock : ℕ} :
    hashLockLookup (nodes ++ [(u, lock)]) uri =
      (hashLockLookup nodes uri).or (if u = uri then some lock else none) := by
  induction nodes with
  | nil => simp [hashLockLookup]
  | cons node nodes ih =>
      by_cases h : node.1 = uri <;> simp [hashLockLookup, h, ih]

theorem hashLockLookup_mem {nodes : List (Uri × ℕ)} {uri : Uri} {lock : ℕ}
    (h : hashLockLookup nodes uri = some lock) : (uri, lock) ∈ nodes := by
  induction nodes with
  | nil => cases h
  | cons node nodes ih =>
      by_cases hu : node.1 = uri
      · obtain rfl : node.2 = lock := by simpa [hashLockLookup, hu] using h
        simp [← hu]
      · exact List.mem_cons_of_mem _ (ih (by simpa [hashLockLookup, hu] using h))

/-- What the table mutex protects. -/
structure TableOk (s : Server T) : Prop where
  mutex : ∀ t, (s.pc t).critical = true ↔ s.mutex = some t
  length : s.hash.length = s.hash.nodes.length
  allocated : ∀ node ∈ s.hash.nodes, node.2 < s.fresh
  absent : ∀ t k uri, s.pc t = .create k uri → hashLockLookup s.hash.nodes uri = none
  entry : ∀ t uri lock, (s.pc t).entry = some (uri, lock) →
    hashLockLookup s.hash.nodes uri = some lock
  held : ∀ t lock, (s.pc t).reads = some lock ∨ (s.pc t).writes = some lock → lock < s.fresh
  failures : ∀ lock, s.fresh ≤ lock → s.openFailures lock = 0

omit [DecidableEq T] in
theorem TableOk.entry_lt (h : TableOk s) {uri : Uri} {lock : ℕ}
    (hentry : (s.pc t).entry = some (uri, lock)) : lock < s.fresh :=
  h.allocated _ (hashLockLookup_mem (h.entry t uri lock hentry))

/-- `attach` on a list kept with its length adds a node at the end. -/
theorem attach_nodes {hash : HashTable} (h : hash.length = hash.nodes.length) (uri : Uri)
    (lock : ℕ) : (attach hash uri lock).nodes = hash.nodes ++ [(uri, lock)] := by
  unfold attach
  cases hn : hash.nodes with
  | nil => simp [h, hn]
  | cons node nodes => simp [h, hn]

theorem attach_length {hash : HashTable} (h : hash.length = hash.nodes.length) (uri : Uri)
    (lock : ℕ) : (attach hash uri lock).length = (attach hash uri lock).nodes.length := by
  rw [attach_nodes h, List.length_append, ← h]
  rfl

/-- A lookup keeps its answer when a missing URI is attached. -/
theorem hashLockLookup_attach {hash : HashTable} (h : hash.length = hash.nodes.length)
    {u uri : Uri} {lock l : ℕ} (hold : hashLockLookup hash.nodes uri = some l) :
    hashLockLookup (attach hash u lock).nodes uri = some l := by
  rw [attach_nodes h, hashLockLookup_append, hold, Option.some_or]

theorem hashLockLookup_attach_self {hash : HashTable} (h : hash.length = hash.nodes.length)
    {uri : Uri} {lock : ℕ} (hnone : hashLockLookup hash.nodes uri = none) :
    hashLockLookup (attach hash uri lock).nodes uri = some lock := by
  simp [attach_nodes h, hashLockLookup_append, hnone]

theorem effect_mutex_exact (h : ∀ u, (s.pc u).critical = true ↔ s.mutex = some u)
    (hnext : next (s.pc t) e = some p) (heffect : effect s t (s.pc t) e = some mid) (u : T) :
    (Function.update s.pc t p u).critical = true ↔ mid.mutex = some u := by
  by_cases hut : u = t
  · subst hut
    rw [Function.update_self]
    have hu := h u
    rcases effect_mutex hnext heffect with ⟨h1, h2, h3⟩ | ⟨h1, h2, h3⟩ | ⟨h1, h2⟩ <;> simp_all
  · rw [Function.update_of_ne hut, h u]
    rcases effect_mutex hnext heffect with ⟨h1, h2, -⟩ | ⟨h1, h2, -⟩ | ⟨h1, -⟩
    · simp [h1, h2, Ne.symm hut]
    · simp [(h t).mp h1, h2, Ne.symm hut]
    · rw [h1]

/-- Whoever holds a lock after a call, the lock was made before it. -/
theorem TableOk.held_lt (h : TableOk s) (hnext : next (s.pc t) e = some p) (u : T) {lock : ℕ}
    (hlock : (Function.update s.pc t p u).reads = some lock ∨
      (Function.update s.pc t p u).writes = some lock) : lock < s.fresh := by
  by_cases hut : u = t
  · subst hut
    rw [Function.update_self] at hlock
    rcases next_holds hnext hlock with hr | hw | ⟨uri, hentry⟩
    · exact h.held u lock (Or.inl hr)
    · exact h.held u lock (Or.inr hw)
    · exact h.entry_lt hentry
  · rw [Function.update_of_ne hut] at hlock
    exact h.held u lock hlock

/-- A call leaks no lock that is not made yet. -/
theorem TableOk.openFailures_eq_zero (h : TableOk s)
    (heffect : effect s t (s.pc t) e = some mid) {lock : ℕ} (hle : s.fresh ≤ lock) :
    mid.openFailures lock = 0 := by
  have hleak : leak (s.pc t) e ≠ some lock := by
    intro hleak
    obtain ⟨uri, hentry⟩ := leak_entry hleak
    have := h.entry_lt hentry
    omega
  simp [effect_openFailures heffect, h.failures lock hle, hleak]

omit [DecidableEq T] in
/-- Only the thread between lock and unlock has a URI to create. -/
theorem TableOk.create_unique (h : TableOk s) {u : T} {k k' : Handler} {uri uri' : Uri}
    (ht : s.pc t = .create k uri) (hu : s.pc u = .create k' uri') : u = t := by
  have h1 := (h.mutex u).mp (by simp [hu, Pc.critical])
  have h2 := (h.mutex t).mp (by simp [ht, Pc.critical])
  simpa using h1.symm.trans h2

/-- The call that attaches a new lock for a URI that was looked up and is absent. -/
theorem TableOk.attached (h : TableOk s) {k : Handler} {uri : Uri}
    (hnext : next (s.pc t) e = some (.mutex_unlock k uri s.fresh))
    (heffect : effect s t (s.pc t) e = some mid) (hp : s.pc t = .create k uri)
    (hhash : mid.hash = attach s.hash uri s.fresh) (hfresh : mid.fresh = s.fresh + 1) :
    TableOk { mid with
      pc := Function.update s.pc t (.mutex_unlock k uri s.fresh)
      calls := Function.update s.calls t (s.calls t ++ [e]) } := by
  have hmutex := effect_mutex_exact h.mutex hnext heffect
  refine ⟨hmutex, ?_, ?_, ?_, ?_, ?_, ?_⟩
  · simpa only [hhash] using attach_length h.length uri s.fresh
  · intro node hnode
    simp only [hhash, hfresh, attach_nodes h.length, List.mem_append, List.mem_singleton]
      at hnode ⊢
    rcases hnode with hnode | rfl
    · have := h.allocated node hnode
      omega
    · simp
  · intro u k' uri' hu
    by_cases hut : u = t
    · subst hut
      simp at hu
    · simp only [Function.update_of_ne hut] at hu
      exact absurd (h.create_unique hp hu) hut
  · intro u uri' lock hentry
    simp only [hhash]
    by_cases hut : u = t
    · subst hut
      obtain ⟨rfl, rfl⟩ : uri = uri' ∧ s.fresh = lock := by
        simpa [Pc.entry] using hentry
      exact hashLockLookup_attach_self h.length (h.absent u k uri hp)
    · simp only [Function.update_of_ne hut] at hentry
      exact hashLockLookup_attach h.length (h.entry u uri' lock hentry)
  · intro u lock hlock
    have := h.held_lt hnext u hlock
    simp only [hfresh]
    omega
  · intro lock hle
    simp only [hfresh] at hle
    exact h.openFailures_eq_zero heffect (by omega)

/-- The calls that leave the table alone. -/
theorem TableOk.kept (h : TableOk s) (hnext : next (s.pc t) e = some p)
    (heffect : effect s t (s.pc t) e = some mid)
    (hp : ∀ k uri, s.pc t ≠ .create k uri) (hhash : mid.hash = s.hash)
    (hfresh : mid.fresh = s.fresh) :
    TableOk { mid with
      pc := Function.update s.pc t p
      calls := Function.update s.calls t (s.calls t ++ [e]) } := by
  have hmutex := effect_mutex_exact h.mutex hnext heffect
  refine ⟨hmutex, ?_, ?_, ?_, ?_, ?_, ?_⟩
  · simpa [hhash] using h.length
  · simpa [hhash, hfresh] using h.allocated
  · intro u k uri hu
    simp only [hhash]
    by_cases hut : u = t
    · subst hut
      exact effect_create hnext heffect (by simpa using hu)
    · exact h.absent u k uri (by simpa [Function.update_of_ne hut] using hu)
  · intro u uri lock hentry
    simp only [hhash]
    by_cases hut : u = t
    · subst hut
      rcases effect_entry hnext heffect hp (by simpa using hentry) with hold | hfound
      · exact h.entry u uri lock hold
      · exact hfound
    · exact h.entry u uri lock (by simpa [Function.update_of_ne hut] using hentry)
  · intro u lock hlock
    simpa only [hfresh] using h.held_lt hnext u hlock
  · intro lock hle
    simp only [hfresh] at hle
    exact h.openFailures_eq_zero heffect hle

theorem step_tableOk_call {s' : Server T} (hs : Step s (.call t e) s') (h : TableOk s) :
    TableOk s' := by
  obtain ⟨p, mid, hnext, heffect, rfl⟩ := step_call hs
  rcases effect_hash hnext heffect with ⟨k, uri, hp, rfl, hhash, hfresh⟩ | ⟨hp, hhash, hfresh⟩
  · exact h.attached hnext heffect hp hhash hfresh
  · exact h.kept hnext heffect hp hhash hfresh

theorem step_tableOk {a : Action T} {s' : Server T} (hs : Step s a s') (h : TableOk s) :
    TableOk s' := by
  cases a with
  | call t e => exact step_tableOk_call hs h
  | accept t =>
      obtain ⟨hpc, rfl⟩ := step_accept hs
      have hcases : ∀ {α : Type} (f : Pc → α) (u : T), f .start = f .returned →
          f (Function.update s.pc t .start u) = f (s.pc u) := by
        intro α f u hf
        by_cases hut : u = t
        · subst hut
          simp [hpc, hf]
        · simp [hut]
      refine ⟨?_, h.length, h.allocated, ?_, ?_, ?_, h.failures⟩
      · intro u
        simpa [hcases Pc.critical u rfl] using h.mutex u
      · intro u k uri hu
        by_cases hut : u = t
        · subst hut
          simp at hu
        · exact h.absent u k uri (by simpa [Function.update_of_ne hut] using hu)
      · intro u uri lock hentry
        exact h.entry u uri lock (by simpa [hcases Pc.entry u rfl] using hentry)
      · intro u lock hlock
        exact h.held u lock
          (by simpa [hcases Pc.reads u rfl, hcases Pc.writes u rfl] using hlock)

/-! ## The counters -/

variable [Fintype T]

/-- The counters of every lock against the program points of all workers. -/
structure LocksOk (s : Server T) : Prop where
  readers : ∀ lock, (s.lock lock).readers = count s.pc (Pc.readsLock lock)
  writers : ∀ lock,
    (s.lock lock).writers = count s.pc (Pc.writesLock lock) + s.openFailures lock
  exclusive : ∀ lock, Exclusive (s.lock lock)

omit [DecidableEq T] in
/-- No worker is inside a lock that has not been created. -/
theorem LocksOk.fresh (h : LocksOk s) (ht : TableOk s) :
    (s.lock s.fresh).readers = 0 ∧ (s.lock s.fresh).writers = 0 := by
  have hr : count s.pc (Pc.readsLock s.fresh) = 0 := by
    refine count_eq_zero.mpr fun u => ?_
    by_contra hu
    exact Nat.lt_irrefl _ (ht.held u s.fresh (Or.inl (by simpa [Pc.readsLock] using hu)))
  have hw : count s.pc (Pc.writesLock s.fresh) = 0 := by
    refine count_eq_zero.mpr fun u => ?_
    by_contra hu
    exact Nat.lt_irrefl _ (ht.held u s.fresh (Or.inr (by simpa [Pc.writesLock] using hu)))
  have hf := ht.failures s.fresh le_rfl
  constructor
  · simp [h.readers, hr]
  · simp [h.writers, hw, hf]

theorem effect_exclusive (ht : TableOk s) (h : LocksOk s) (hnext : next (s.pc t) e = some p)
    (heffect : effect s t (s.pc t) e = some mid) (lock : ℕ) : Exclusive (mid.lock lock) := by
  obtain ⟨hwriters, hreaders⟩ := h.exclusive lock
  obtain ⟨hr, hw⟩ := effect_counters hnext heffect (h.fresh ht) lock
  have hcount := h.readers lock
  constructor
  · by_cases htake : e = .writer_lock lock
    · subst htake
      have := (writerWaits_false (effect_writer_lock hnext heffect)).1
      simp at hw
      omega
    · simp [htake] at hw
      omega
  · intro hpos
    by_cases htake : e = .reader_lock lock
    · subst htake
      have := readerWaits_false (effect_reader_lock heffect)
      simp at hw
      omega
    · by_cases hwrite : e = .writer_lock lock
      · subst hwrite
        have := (writerWaits_false (effect_writer_lock hnext heffect)).2
        simp at hr
        omega
      · -- a reader that leaves was counted, so no writer is inside
        have hheld := next_readsLock hnext lock
        have hle : ((s.pc t).readsLock lock).toNat ≤ count s.pc (Pc.readsLock lock) :=
          toNat_le_count t
        simp only [htake, hwrite, decide_false, Bool.toNat_false] at hr hw hheld
        omega

theorem step_locksOk {a : Action T} {s' : Server T} (hs : Step s a s') (ht : TableOk s)
    (h : LocksOk s) : LocksOk s' := by
  cases a with
  | accept t =>
      obtain ⟨hpc, rfl⟩ := step_accept hs
      have hclass : ∀ f : Pc → Bool, f .start = f .returned →
          count (Function.update s.pc t .start) f = count s.pc f := by
        intro f hf
        have := count_update s.pc t .start f
        rw [hpc, hf] at this
        omega
      refine ⟨fun lock => ?_, fun lock => ?_, h.exclusive⟩
      · simpa [hclass (Pc.readsLock lock) rfl] using h.readers lock
      · simpa [hclass (Pc.writesLock lock) rfl] using h.writers lock
  | call t e =>
      obtain ⟨p, mid, hnext, heffect, rfl⟩ := step_call hs
      have hexclusive := effect_exclusive ht h hnext heffect
      refine ⟨fun lock => ?_, fun lock => ?_, hexclusive⟩
      · have hmove := (effect_counters hnext heffect (h.fresh ht) lock).1
        have hcount := count_update s.pc t p (Pc.readsLock lock)
        have hnext' := next_readsLock hnext lock
        have hlock := h.readers lock
        dsimp only
        omega
      · have hmove := (effect_counters hnext heffect (h.fresh ht) lock).2
        have hcount := count_update s.pc t p (Pc.writesLock lock)
        have hnext' := next_writesLock hnext lock
        have hlock := h.writers lock
        have hfailures := effect_openFailures heffect lock
        dsimp only
        omega

omit [DecidableEq T] [Fintype T] in
theorem initial_tableOk (files : Uri → Bool) : TableOk (initial files : Server T) where
  mutex := by simp [initial, Pc.critical]
  length := rfl
  allocated := by simp [initial]
  absent := by simp [initial]
  entry := by simp [initial, Pc.entry]
  held := by simp [initial, Pc.reads, Pc.writes]
  failures := by simp [initial]

omit [DecidableEq T] in
theorem initial_locksOk (files : Uri → Bool) : LocksOk (initial files : Server T) where
  readers := by simp [initial, rwlock_new, count, Pc.readsLock, Pc.reads]
  writers := by simp [initial, rwlock_new, count, Pc.writesLock, Pc.writes]
  exclusive := fun _ => ⟨by simp [initial, rwlock_new], by simp [initial, rwlock_new]⟩

theorem reaches_locksOk {files : Uri → Bool} {ok : Server T → Action T → Prop}
    (h : Reaches files ok s) : TableOk s ∧ LocksOk s := by
  refine Reachable.invariant (P := fun s => TableOk s ∧ LocksOk s) h ?_ ?_
  · rintro _ rfl
    exact ⟨initial_tableOk files, initial_locksOk files⟩
  · rintro s a s' ⟨ht, hl⟩ - hs
    exact ⟨step_tableOk hs ht, step_locksOk hs ht hl⟩

/-! ## What is left when every worker is idle -/

theorem idle_locks {files : Uri → Bool} {ok : Server T → Action T → Prop}
    (h : Reaches files ok s) (hidle : ∀ t, s.pc t = .returned) (lock : ℕ) :
    (s.lock lock).readers = 0 ∧ (s.lock lock).writers = s.openFailures lock := by
  have hl := (reaches_locksOk h).2
  have hnone : ∀ f : Pc → Bool, f .returned = false → count s.pc f = 0 := by
    intro f hf
    exact count_eq_zero.mpr fun u => by rw [hidle u, hf]
  constructor
  · simp [hl.readers, hnone (Pc.readsLock lock) rfl]
  · simp [hl.writers, hnone (Pc.writesLock lock) rfl]

/-- A connection releases every lock it took, and an idle server has every lock in
its table free, exactly where no `open` of a `PUT` has failed. -/
theorem locks_released_iff {T : Type} [DecidableEq T] [Fintype T] (calls : List Event)
    (files : Uri → Bool) (s : Server T) :
    (Completes calls → (Balanced calls ↔ ∀ e ∈ calls, e.openFails = false)) ∧
    (Reaches files Always s → (∀ t, s.pc t = .returned) → ∀ node ∈ s.hash.nodes,
      ((s.lock node.2).Free ↔ s.openFailures node.2 = 0)) := by
  refine ⟨balanced_iff, ?_⟩
  intro h hidle node _
  obtain ⟨hreaders, hwriters⟩ := idle_locks h hidle node.2
  simp [Rwlock.Free, hreaders, hwriters]

/-- The calls of a `PUT` to `a` that waits for nobody, up to its `open`. -/
def putUntilOpen (existed : Bool) : List Event :=
  [.conn_new, .conn_parse none, .conn_get_request .PUT ['a'], .access existed,
    .pthread_mutex_lock, .hashLockLookup none, .attach 0 0, .pthread_mutex_unlock,
    .writer_arrives 0, .writer_lock 0]

/-- The calls of a `PUT` to `a` whose `open` fails with `EACCES`. -/
def forbiddenPut : List Event :=
  putUntilOpen true ++ [.open_write (some .EACCES), .fprintf .PUT ['a'] 403 none,
    .conn_send_response .FORBIDDEN, .conn_delete]

/-- The calls of a `PUT` that creates `a`. -/
def createdPut : List Event :=
  putUntilOpen false ++ [.open_write none, .conn_recv_file none, .fprintf .PUT ['a'] 201 none,
    .writer_unlock 0, .close, .conn_send_response .CREATED, .conn_delete]

/-- A worker that serves one connection. -/
def serves (calls : List Event) : List (Action (Fin 1)) :=
  .accept 0 :: calls.map (.call 0)

theorem locks_released_iff_created :
    Balanced createdPut ∧ ∃ s : Server (Fin 1), Reaches (fun _ => false) Always s ∧
      (['a'], 0) ∈ s.hash.nodes ∧ (s.lock 0).Free := by
  obtain ⟨s, hs, hf⟩ := reaches_run (fun _ => false) Always (serves createdPut)
    (fun s => s.pc 0 == .returned && s.hash.nodes.contains (['a'], 0) && s.openFailures 0 == 0)
    (by decide)
  simp only [Bool.and_eq_true, beq_iff_eq, List.contains_iff_mem] at hf
  obtain ⟨⟨hpc, hnode⟩, hfailures⟩ := hf
  have hidle : ∀ t, s.pc t = .returned := by simpa [Fin.forall_fin_one] using hpc
  obtain ⟨hcalls, htable⟩ := locks_released_iff createdPut (fun _ => false) s
  exact ⟨(hcalls (by decide)).mpr (by decide), s, hs, hnode,
    (htable hs hidle (['a'], 0) hnode).mpr hfailures⟩

/-- The writer lock of `a` is still taken when `request_parser` has returned. -/
theorem failed_open_keeps_lock :
    (Completes forbiddenPut ∧ ¬ Balanced forbiddenPut) ∧
      ∃ s : Server (Fin 1), Reaches (fun _ => true) Always s ∧ (∀ t, s.pc t = .returned) ∧
        (['a'], 0) ∈ s.hash.nodes ∧ ¬ (s.lock 0).Free := by
  refine ⟨⟨by decide, fun h => absurd (h 0).2 (by decide)⟩, ?_⟩
  obtain ⟨s, hs, hf⟩ := reaches_run (fun _ => true) Always (serves forbiddenPut)
    (fun s => s.pc 0 == .returned && s.hash.nodes.contains (['a'], 0) &&
      (s.lock 0).writers == 1)
    (by decide)
  simp only [Bool.and_eq_true, beq_iff_eq, List.contains_iff_mem] at hf
  obtain ⟨⟨hpc, hnode⟩, hwriters⟩ := hf
  refine ⟨s, hs, by simpa [Fin.forall_fin_one] using hpc, hnode, ?_⟩
  simp [Rwlock.Free, hwriters]

end FavoriteAssignments.HttpServer
