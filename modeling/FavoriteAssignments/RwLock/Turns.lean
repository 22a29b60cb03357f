import FavoriteAssignments.RwLock.Wakeups

/-! # Turns

How many readers may enter before the next writer. What counts is `served_readers`, which
starts from whatever `malloc` left, goes up with every reader and is reset by every writer
that leaves. -/

namespace FavoriteAssignments.RwLock

open ThreadCount Transition

variable {T : Type*} [DecidableEq T]

/-! ## Acquisitions -/

/-- Some thread has come to hold the lock as a reader. -/
def ReaderEnters (s s' : State T) : Prop := ∃ t, s.pc t ≠ .reading ∧ s'.pc t = .reading

def WriterEnters (s s' : State T) : Prop := ∃ t, s.pc t ≠ .writing ∧ s'.pc t = .writing

instance decidableReaderEnters [Fintype T] (s s' : State T) : Decidable (ReaderEnters s s') :=
  inferInstanceAs (Decidable (∃ t, s.pc t ≠ .reading ∧ s'.pc t = .reading))

instance decidableWriterEnters [Fintype T] (s s' : State T) : Decidable (WriterEnters s s') :=
  inferInstanceAs (Decidable (∃ t, s.pc t ≠ .writing ∧ s'.pc t = .writing))

/-- The runs of a lock with two numbers about the past: the value `served_readers` was last
set to, by `malloc` or by a leaving writer, and how many readers have entered since. -/
inductive Served (p : PRIORITY) (n garbage : BitVec 32) : State T → ℤ → ℕ → Prop where
  | start {s} (h : Initial p n garbage s) : Served p n garbage s garbage.toInt 0
  | enter {s a s' base k} (h : Served p n garbage s base k) (hs : Step s a s')
      (he : ReaderEnters s s') : Served p n garbage s' base (k + 1)
  | release {s t s' base k} (h : Served p n garbage s base k)
      (hs : Step s (.writer_unlock t) s') : Served p n garbage s' 0 0
  | quiet {s a s' base k} (h : Served p n garbage s base k) (hs : Step s a s')
      (he : ¬ ReaderEnters s s') (ha : ∀ t, a ≠ .writer_unlock t) :
      Served p n garbage s' base k

/-- From `s₁` on, `k` readers have entered and no writer. -/
inductive Between (s₁ : State T) : ℕ → State T → Prop where
  | start : Between s₁ 0 s₁
  | enter {k s a s'} (h : Between s₁ k s) (hs : Step s a s') (hw : ¬ WriterEnters s s')
      (hr : ReaderEnters s s') : Between s₁ (k + 1) s'
  | quiet {k s a s'} (h : Between s₁ k s) (hs : Step s a s') (hw : ¬ WriterEnters s s')
      (hr : ¬ ReaderEnters s s') : Between s₁ k s'

/-! ## What a step does to the counters -/

variable {s s' : State T} {a : Action T} {t : T}

omit [DecidableEq T] in
theorem OnlyWakes.reading_iff {pc pc' : T → Pc} (h : OnlyWakes pc pc') (t : T) :
    pc' t = .reading ↔ pc t = .reading := by
  rcases h t with h | ⟨h1, h2⟩ | ⟨h1, h2⟩
  · rw [h]
  · simp [h1, h2]
  · simp [h1, h2]

omit [DecidableEq T] in
theorem not_readerEnters {rw : Rwlock} {pc : T → Pc}
    (h : ∀ t, pc t = .reading → s.pc t = .reading) : ¬ ReaderEnters s ⟨rw, pc⟩ :=
  fun ⟨t, hno, hyes⟩ => hno (h t hyes)

theorem reading_of_update {pc : T → Pc} {q : Pc} (hq : q ≠ .reading) (u : T)
    (h : Function.update pc t q u = .reading) : pc u = .reading := by
  by_cases hu : u = t
  · subst hu
    exact absurd (by simpa using h) hq
  · rwa [Function.update_of_ne hu] at h

theorem readerTries_of_passes {rw : Rwlock} (pc : T → Pc) (h : rw.readerWaits = false) :
    readerTries rw pc t = ⟨rw.readerEnters, Function.update pc t .reading⟩ := by
  rw [readerTries, if_neg (by simp [h])]

/-- What a step does to the three counters a turn depends on. -/
inductive Turn (s : State T) (a : Action T) (s' : State T) : Prop where
  /-- A reader has passed its loop condition. -/
  | reader (ha : ∀ t, a ≠ .writer_unlock t) (he : ReaderEnters s s')
      (hwaits : s.rw.readerWaits = false)
      (hserved : s'.rw.served_readers = int32 (s.rw.served_readers + 1))
      (hwriters : s'.rw.writers = s.rw.writers)
      (hwaiting : s'.rw.waiting_writers = s.rw.waiting_writers)
  /-- A writer has left. -/
  | release (t : T) (ha : a = .writer_unlock t) (he : ¬ ReaderEnters s s')
      (hserved : s'.rw.served_readers = 0) (hwriters : s'.rw.writers = s.rw.writers - 1)
      (hwaiting : s'.rw.waiting_writers = s.rw.waiting_writers)
  | writer (ha : ∀ t, a ≠ .writer_unlock t) (he : ¬ ReaderEnters s s') (hw : WriterEnters s s')
      (hserved : s'.rw.served_readers = s.rw.served_readers)
  | quiet (ha : ∀ t, a ≠ .writer_unlock t) (he : ¬ ReaderEnters s s')
      (hserved : s'.rw.served_readers = s.rw.served_readers)
      (hwriters : s'.rw.writers = s.rw.writers)
      (hwaiting : s.rw.waiting_writers ≤ s'.rw.waiting_writers)

theorem readerTries_turn {rw : Rwlock} (hpc : s.pc t ≠ .reading)
    (hrw : rw = s.rw ∨ rw = s.rw.readerArrives) (ha : ∀ t, a ≠ .writer_unlock t) :
    Turn s a (readerTries rw s.pc t) := by
  have hwaits : rw.readerWaits = s.rw.readerWaits := by
    rcases hrw with rfl | rfl <;> rfl
  have hfields : rw.served_readers = s.rw.served_readers ∧ rw.writers = s.rw.writers ∧
      rw.waiting_writers = s.rw.waiting_writers := by
    rcases hrw with rfl | rfl <;> exact ⟨rfl, rfl, rfl⟩
  obtain ⟨h1, h2, h3⟩ := hfields
  unfold readerTries
  split
  · refine .quiet ha (not_readerEnters (reading_of_update (by simp))) h1 h2 h3.ge
  · next hno =>
      refine .reader ha ⟨t, hpc, by simp⟩ (hwaits ▸ by simpa using hno) ?_ h2 h3
      simp only [Rwlock.readerEnters, h1]

theorem writerTries_turn {rw : Rwlock} (hpc : s.pc t ≠ .writing)
    (hrw : rw = s.rw ∨ rw = s.rw.writerArrives) (ha : ∀ t, a ≠ .writer_unlock t) :
    Turn s a (writerTries rw s.pc t) := by
  have hfields : rw.served_readers = s.rw.served_readers ∧ rw.writers = s.rw.writers ∧
      s.rw.waiting_writers ≤ rw.waiting_writers := by
    rcases hrw with rfl | rfl
    · exact ⟨rfl, rfl, le_rfl⟩
    · exact ⟨rfl, rfl, Int.le_add_one le_rfl⟩
  obtain ⟨h1, h2, h3⟩ := hfields
  have hnone : ∀ q : Pc, q ≠ .reading → ∀ rw, ¬ ReaderEnters s ⟨rw, Function.update s.pc t q⟩ :=
    fun q hq _ => not_readerEnters (reading_of_update hq)
  unfold writerTries
  split
  · exact .quiet ha (hnone _ (by simp) _) h1 h2 h3
  · exact .writer ha (hnone _ (by simp) _) ⟨t, hpc, by simp⟩ h1

/-- A thread that leaves and the threads woken by its signals do not enter. -/
theorem not_readerEnters_of_leaves {rw : Rwlock} {pc' : T → Pc}
    (h : OnlyWakes (Function.update s.pc t .outside) pc') : ¬ ReaderEnters s ⟨rw, pc'⟩ :=
  not_readerEnters fun u hu => reading_of_update (by simp) u ((h.reading_iff u).mp hu)

theorem step_turn (hs : Step s a s') : Turn s a s' := by
  cases hs with
  | reader_lock t hpc => exact readerTries_turn (by simp [hpc]) (Or.inr rfl) (by simp)
  | reader_recheck t hpc => exact readerTries_turn (by simp [hpc]) (Or.inl rfl) (by simp)
  | reader_unlock t pc' hpc hsig =>
      exact .quiet (by simp) (not_readerEnters_of_leaves (SignalWrite.onlyWakes hsig.signalWrite))
        rfl rfl le_rfl
  | writer_lock t hpc => exact writerTries_turn (by simp [hpc]) (Or.inr rfl) (by simp)
  | writer_recheck t hpc => exact writerTries_turn (by simp [hpc]) (Or.inl rfl) (by simp)
  | writer_unlock t pc' hpc hsig =>
      exact .release t rfl (not_readerEnters_of_leaves hsig.onlyWakes) rfl rfl rfl
  | spurious_read t hpc =>
      exact .quiet (by simp) (not_readerEnters (reading_of_update (by simp))) rfl rfl le_rfl
  | spurious_write t hpc =>
      exact .quiet (by simp) (not_readerEnters (reading_of_update (by simp))) rfl rfl le_rfl

/-- Nothing changes the priority and the number of readers a turn allows. -/
theorem step_settings (hs : Step s a s') :
    s'.rw.priority = s.rw.priority ∧ s'.rw.n_way = s.rw.n_way := by
  have hreader : ∀ (rw : Rwlock) (t : T), (readerTries rw s.pc t).rw.priority = rw.priority ∧
      (readerTries rw s.pc t).rw.n_way = rw.n_way := by
    intro rw t
    unfold readerTries
    split <;> exact ⟨rfl, rfl⟩
  have hwriter : ∀ (rw : Rwlock) (t : T), (writerTries rw s.pc t).rw.priority = rw.priority ∧
      (writerTries rw s.pc t).rw.n_way = rw.n_way := by
    intro rw t
    unfold writerTries
    split <;> exact ⟨rfl, rfl⟩
  cases hs with
  | reader_lock t _ => exact hreader _ t
  | reader_recheck t _ => exact hreader _ t
  | writer_lock t _ => exact hwriter _ t
  | writer_recheck t _ => exact hwriter _ t
  | _ => exact ⟨rfl, rfl⟩

/-! ## The history -/

section History

variable {p : PRIORITY} {n garbage : BitVec 32} {base : ℤ} {k : ℕ}

theorem Served.reachable (h : Served p n garbage s base k) :
    Reachable (Initial p n garbage) Step Always s := by
  induction h with
  | start h => exact .start h
  | enter _ hs _ ih => exact ih.next trivial hs
  | release _ hs ih => exact ih.next trivial hs
  | quiet _ hs _ _ ih => exact ih.next trivial hs

/-- Every run has its two numbers. -/
theorem exists_served (h : Reachable (Initial p n garbage) Step Always s) :
    ∃ base k, Served p n garbage s base k := by
  induction h with
  | start h => exact ⟨_, _, .start h⟩
  | @next s a s' _ _ hs ih =>
      obtain ⟨base, k, h⟩ := ih
      by_cases he : ReaderEnters s s'
      · exact ⟨_, _, h.enter hs he⟩
      · by_cases ha : ∃ t, a = .writer_unlock t
        · obtain ⟨t, rfl⟩ := ha
          exact ⟨_, _, h.release hs⟩
        · exact ⟨_, _, h.quiet hs he (by simpa using ha)⟩

theorem Served.settings (h : Served p n garbage s base k) :
    s.rw.priority = p ∧ s.rw.n_way = n.toInt := by
  refine h.reachable.invariant (P := fun s => s.rw.priority = p ∧ s.rw.n_way = n.toInt) ?_ ?_
  · rintro s rfl
    exact ⟨rfl, rfl⟩
  · rintro s a s' ⟨hp, hn⟩ - hs
    obtain ⟨hp', hn'⟩ := step_settings hs
    exact ⟨hp'.trans hp, hn'.trans hn⟩

/-- `served_readers` is what it was last set to and the readers since, as an `int`. -/
theorem Served.served_readers (h : Served p n garbage s base k) :
    s.rw.served_readers = int32 (base + k) := by
  induction h with
  | start h =>
      subst h
      simp only [rwlock_new, Nat.cast_zero, add_zero]
      exact (BitVec.toInt_bmod_cancel garbage).symm
  | enter _ hs he ih =>
      cases step_turn hs with
      | reader _ _ _ hserved =>
          rw [hserved, ih, int32, int32, Int.bmod_add_bmod, int32]
          push_cast
          rw [add_assoc]
      | release _ _ hno => exact absurd he hno
      | writer _ hno => exact absurd he hno
      | quiet _ hno => exact absurd he hno
  | release _ hs ih =>
      cases step_turn hs with
      | reader ha => exact absurd rfl (ha _)
      | release _ _ _ hserved => exact hserved
      | writer ha => exact absurd rfl (ha _)
      | quiet ha => exact absurd rfl (ha _)
  | quiet _ hs he ha ih =>
      cases step_turn hs with
      | reader _ hyes => exact absurd hyes he
      | release t hrel => exact absurd hrel (ha t)
      | writer _ _ _ hserved => exact hserved.trans ih
      | quiet _ _ hserved => exact hserved.trans ih

end History

/-! ## Turns of readers -/

section Bound

variable [Fintype T] {n garbage : BitVec 32} {s₁ : State T} {k : ℕ}

/-- While a writer waits, what is left of the readers' turn and the readers that had it. -/
structure Allowance (n : BitVec 32) (k : ℕ) (rw : Rwlock) : Prop where
  n_way : rw.n_way = n.toInt
  waiting : 0 < rw.waiting_writers
  served : -(2 ^ 31) ≤ rw.served_readers
  before : 0 < rw.writers → k = 0
  after : rw.writers = 0 → k + max 0 (rw.n_way - rw.served_readers) ≤ n.toNat

omit [DecidableEq T] [Fintype T] in
theorem toInt_le_toNat (n : BitVec 32) : n.toInt ≤ n.toNat := by
  rw [BitVec.toInt_eq_toNat_cond]
  split <;> omega

theorem Allowance.step {a : Action T} {s s' : State T} (h : Allowance n k s.rw)
    (hc : Counted s) (hs : Step s a s') (hw : ¬ WriterEnters s s') :
    (ReaderEnters s s' → Allowance n (k + 1) s'.rw) ∧
      (¬ ReaderEnters s s' → Allowance n k s'.rw) := by
  have hset := (step_settings hs).2
  have hn := toInt_le_toNat n
  have hlt := n.toInt_lt
  obtain ⟨h1, h2, h3, h4, h5⟩ := h
  cases step_turn hs with
  | reader _ he hwaits hserved hwriters hwaiting =>
      refine ⟨fun _ => ?_, fun hno => absurd he hno⟩
      have hpass := mt (readerWaits_iff s.rw).mpr (by simp [hwaits])
      have hfree : s.rw.writers = 0 := by
        have := hc.writers
        omega
      have hturn : s.rw.served_readers < s.rw.n_way := by
        by_contra hge
        exact hpass (Or.inr (Or.inr ⟨h2, by omega⟩))
      have hnext : int32 (s.rw.served_readers + 1) = s.rw.served_readers + 1 :=
        int32_eq (by omega) (by omega)
      have hleft := h5 hfree
      constructor <;> omega
  | release t ha he hserved hwriters hwaiting =>
      refine ⟨fun hyes => absurd hyes he, fun _ => ?_⟩
      subst ha
      cases hs with
      | writer_unlock t _ hpc =>
          have hpos := count_pos_of (f := Pc.writes) (show (s.pc t).writes = true by rw [hpc]; rfl)
          have hinside : 0 < s.rw.writers := by
            have := hc.writers
            omega
          have hnone := h4 hinside
          constructor <;> omega
  | writer _ _ hyes => exact absurd hyes hw
  | quiet _ he hserved hwriters hwaiting =>
      refine ⟨fun hyes => absurd hyes he, fun _ => ?_⟩
      constructor <;> omega

theorem Between.allowance {p : PRIORITY} {s : State T} (hb : Between s₁ k s)
    (h : Reachable (Initial p n garbage) Step Always s₁) (ha : Allowance n 0 s₁.rw) :
    Allowance n k s.rw ∧ Reachable (Initial p n garbage) Step Always s := by
  induction hb with
  | start => exact ⟨ha, h⟩
  | enter _ hs hw hr ih =>
      obtain ⟨ih, hreach⟩ := ih
      exact ⟨(ih.step (reachable_counted hreach).1 hs hw).1 hr, hreach.next trivial hs⟩
  | quiet _ hs hw hr ih =>
      obtain ⟨ih, hreach⟩ := ih
      exact ⟨(ih.step (reachable_counted hreach).1 hs hw).2 hr, hreach.next trivial hs⟩

omit [Fintype T] in
/-- A writer that goes to sleep leaves everything but its arrival as it was. -/
theorem writer_lock_sleeps {s : State T} {t : T} (hs : Step s (.writer_lock t) s₁)
    (hsleep : s₁.pc t = .sleepWrite) :
    s₁ = ⟨s.rw.writerArrives, Function.update s.pc t .sleepWrite⟩ := by
  cases hs with
  | writer_lock t hpc =>
      unfold writerTries at hsleep ⊢
      split
      · rfl
      · next hno => simp [hno] at hsleep

/-- Idle threads that come as readers all enter while the turn lasts. -/
theorem exists_between (m : ℕ) (hp : s₁.rw.priority ≠ .WRITERS) (hfree : s₁.rw.writers = 0)
    (hserved : s₁.rw.served_readers + m ≤ s₁.rw.n_way) (hlow : -(2 ^ 31) ≤ s₁.rw.served_readers)
    (hhigh : s₁.rw.n_way < 2 ^ 31) (hidle : m ≤ count s₁.pc (Pc.is .outside)) :
    ∃ s₂, Between s₁ m s₂ ∧ s₂.rw.priority = s₁.rw.priority ∧ s₂.rw.n_way = s₁.rw.n_way ∧
      s₂.rw.writers = 0 ∧ s₂.rw.served_readers = s₁.rw.served_readers + m ∧
      count s₁.pc (Pc.is .outside) = count s₂.pc (Pc.is .outside) + m := by
  induction m with
  | zero => exact ⟨s₁, .start, rfl, rfl, hfree, by simp, rfl⟩
  | succ m ih =>
      obtain ⟨s, hb, h1, h2, h3, h4, h5⟩ := ih (by omega) (by omega)
      obtain ⟨t, ht⟩ := count_pos.mp (show 0 < count s.pc (Pc.is .outside) by omega)
      have hpc : s.pc t = .outside := by simpa [Pc.is] using ht
      have hpass : s.rw.readerArrives.readerWaits = false := by
        simp [Rwlock.readerWaits, Rwlock.readerArrives, h1, h2, h3, h4, hp]
        omega
      have henters := readerTries_of_passes (t := t) s.pc hpass
      refine ⟨_, hb.enter (.reader_lock t hpc) ?_ ?_, ?_⟩
      · rw [henters]
        rintro ⟨u, hno, hyes⟩
        by_cases hu : u = t
        · subst hu
          simp at hyes
        · exact hno (by simpa [hu] using hyes)
      · exact ⟨t, by simp [hpc], by simp [henters]⟩
      · have hcount := count_update s.pc t .reading (Pc.is .outside)
        have hnext : int32 (s.rw.served_readers + 1) = s.rw.served_readers + 1 :=
          int32_eq (by omega) (by omega)
        simp only [hpc, Pc.is, decide_true, Bool.toNat_true] at hcount
        rw [henters]
        simp only [Rwlock.readerEnters, Rwlock.readerArrives, hnext]
        refine ⟨h1, h2, h3, by omega, ?_⟩
        simp at hcount
        omega

/-- While a writer waits at most `n` readers enter if a writer is inside when it arrives, or
the count of served readers is not negative, or `n` is no positive `int`. With more than `n`
idle threads nothing less will do. -/
theorem readers_between_writers {base : ℤ} {served : ℕ} {s : State T} {t : T}
    (h : Served .N_WAY n garbage s base served) (hs : Step s (.writer_lock t) s₁)
    (hsleep : s₁.pc t = .sleepWrite) :
    ((s.rw.writers = 0 → 0 ≤ int32 (base + served) ∨ n.toInt < 0) →
        ∀ k s₂, Between s₁ k s₂ → k ≤ n.toNat) ∧
      (n.toNat < count s₁.pc (Pc.is .outside) → (∀ k s₂, Between s₁ k s₂ → k ≤ n.toNat) →
        s.rw.writers = 0 → 0 ≤ int32 (base + served) ∨ n.toInt < 0) := by
  obtain ⟨hp, hn⟩ := h.settings
  have hserved := h.served_readers
  have hlow := (int32_bounds (base + served)).1
  have hcond := BitVec.toInt_eq_toNat_cond n
  have hlt := n.isLt
  have hcounted := (reachable_counted h.reachable).1
  have heq := writer_lock_sleeps hs hsleep
  subst heq
  constructor
  · intro hok k s₂ hb
    have hwaiting := hcounted.waiting_writers
    have hstart : Allowance n 0 s.rw.writerArrives := by
      simp only [Rwlock.writerArrives]
      constructor
      · exact hn
      · simp only
        omega
      · simp only
        omega
      · simp
      · intro hfree
        have := hok hfree
        split at hcond <;> simp only <;> omega
    obtain ⟨hend, hreach⟩ := hb.allowance (h.reachable.next trivial hs) hstart
    have hnonneg := (reachable_counted hreach).1.writers
    by_cases hfree : s₂.rw.writers = 0
    · have := hend.after hfree
      omega
    · have := hend.before (by omega)
      omega
  · intro hidle hall hfree
    by_contra hno
    push Not at hno
    obtain ⟨s₂, hb, -⟩ : ∃ s₂, Between
        ⟨s.rw.writerArrives, Function.update s.pc t .sleepWrite⟩ (n.toNat + 1) s₂ ∧ _ :=
      exists_between (n.toNat + 1) (by simp [Rwlock.writerArrives, hp]) hfree
        (by simp only [Rwlock.writerArrives]; split at hcond <;> omega)
        (by simp only [Rwlock.writerArrives]; omega)
        (by simp only [Rwlock.writerArrives]; split at hcond <;> omega) hidle
    have := hall _ _ hb
    omega

end Bound

/-! ## A writer behind a reader -/

/-- Thread 0 has entered a fresh lock as a reader. -/
def readerInside (p : PRIORITY) (n garbage : BitVec 32) : State (Fin 4) :=
  readerTries (rwlock_new p n garbage).readerArrives (fun _ => .outside) 0

/-- Thread 1 has then come as a writer. -/
def writerBehind (p : PRIORITY) (n garbage : BitVec 32) : State (Fin 4) :=
  writerTries (readerInside p n garbage).rw.writerArrives (readerInside p n garbage).pc 1

theorem served_readerInside {p : PRIORITY} {n garbage : BitVec 32}
    (h : ReaderEnters ⟨rwlock_new p n garbage, fun _ => .outside⟩ (readerInside p n garbage)) :
    Served p n garbage (readerInside p n garbage) garbage.toInt 1 :=
  (Served.start rfl).enter (.reader_lock 0 rfl) h

/-- With `n = 2` a second reader still enters, and that is within the bound. -/
theorem readers_between_writers_two : ∃ s₂ : State (Fin 4),
    (writerBehind .N_WAY 2 0).pc 1 = .sleepWrite ∧ Between (writerBehind .N_WAY 2 0) 1 s₂ ∧
      1 ≤ (2 : BitVec 32).toNat := by
  have hb := (Between.start : Between (writerBehind .N_WAY 2 0) 0 _).enter (.reader_lock 2 rfl)
    (by decide) (by decide)
  exact ⟨_, rfl, hb, (readers_between_writers (served_readerInside (by decide))
    (.writer_lock 1 rfl) rfl).1 (fun _ => Or.inl (by decide)) _ _ hb⟩

/-- Where `malloc` has left -2 in the block, two readers pass a writer with `n = 1`. -/
theorem two_readers_pass_writer : ∃ s s₁ s₂ : State (Fin 4),
    Reachable (Initial .N_WAY 1 (-2)) Step Always s ∧ Step s (.writer_lock 1) s₁ ∧
      s₁.pc 1 = .sleepWrite ∧ Between s₁ 2 s₂ ∧ ¬ 2 ≤ (1 : BitVec 32).toNat := by
  have one := (Between.start : Between (writerBehind .N_WAY 1 (-2)) 0 _).enter
    (.reader_lock 2 rfl) (by decide) (by decide)
  have two := one.enter (.reader_lock 3 rfl) (by decide) (by decide)
  exact ⟨_, _, _, (served_readerInside (by decide)).reachable, .writer_lock 1 rfl, rfl, two,
    by decide⟩

/-! ## Readers first -/

/-- Under `READERS` a reader that finds no writer inside enters exactly if no writer waits, or
the readers since the last writer, counted on from what `served_readers` was set to, are
fewer than `n` as an `int`. -/
theorem reader_enters_iff [Fintype T] {n garbage : BitVec 32} {base : ℤ} {k : ℕ}
    (h : Served .READERS n garbage s base k) (ha : a = .reader_lock t ∨ a = .reader_recheck t)
    (hs : Step s a s') (hfree : s.rw.writers = 0) :
    s'.pc t = .reading ↔
      (∀ u, (s.pc u).waitsWrite = false) ∨ int32 (base + k) < n.toInt := by
  obtain ⟨hp, hn⟩ := h.settings
  have hserved := h.served_readers
  have hwaiting := (reachable_counted h.reachable).1.waiting_writers
  have hnone : (∀ u, (s.pc u).waitsWrite = false) ↔ ¬ 0 < s.rw.waiting_writers := by
    rw [← count_eq_zero, hwaiting]
    omega
  have htries : ∀ rw : Rwlock, rw.readerWaits = s.rw.readerWaits →
      ((readerTries rw s.pc t).pc t = .reading ↔ ¬ s.rw.readerWaits = true) := by
    intro rw hrw
    unfold readerTries
    rw [hrw]
    split <;> simp_all
  have hstep : s'.pc t = .reading ↔ ¬ s.rw.readerWaits = true := by
    rcases ha with rfl | rfl
    · cases hs with
      | reader_lock t _ => exact htries _ rfl
    · cases hs with
      | reader_recheck t _ => exact htries _ rfl
  rw [hstep, readerWaits_iff, hnone, hp, hn, hserved, hfree]
  simp only [lt_irrefl, reduceCtorEq, false_and, false_or, not_and_or, not_le]

/-- A reader behind a waiting writer that finds the turn still open. -/
theorem reader_enters_iff_turn :
    (readerTries (writerBehind .READERS 2 0).rw.readerArrives (writerBehind .READERS 2 0).pc
      2).pc 2 = .reading := by
  have hinside : Served .READERS 2 0 (readerInside .READERS 2 0) 0 1 :=
    served_readerInside (by decide)
  have hserved := hinside.quiet (.writer_lock 1 rfl) (by decide) (by simp)
  exact (reader_enters_iff hserved (Or.inl rfl) (.reader_lock 2 rfl) rfl).mpr
    (Or.inr (by decide))

/-- One reader served, one writer waiting: with `n = 1` the next reader waits. -/
theorem reader_waits_behind_writer : ∃ s s' : State (Fin 4),
    Reachable (Initial .READERS 1 0) Step Always s ∧ s.rw.writers = 0 ∧
      Step s (.reader_lock 2) s' ∧ s'.pc 2 ≠ .reading := by
  have hinside : Served .READERS 1 0 (readerInside .READERS 1 0) 0 1 :=
    served_readerInside (by decide)
  have hserved := hinside.quiet (.writer_lock 1 rfl) (by decide) (by simp)
  exact ⟨_, _, hserved.reachable, rfl, .reader_lock 2 rfl, by decide⟩

end FavoriteAssignments.RwLock
