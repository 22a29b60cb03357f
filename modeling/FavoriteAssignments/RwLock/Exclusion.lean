import FavoriteAssignments.RwLock.Lock
import FavoriteAssignments.Library.ThreadCount
import FavoriteAssignments.Library.Transition

/-! # Exclusion

The counters of the lock always equal the number of threads at the program
points they stand for, and the counters never show a writer beside another
holder. -/

namespace FavoriteAssignments.RwLock

open ThreadCount Transition

variable {T : Type*} [DecidableEq T]

/-! ## Classes of program points -/

def Pc.reads (p : Pc) : Bool := decide (p = .reading)

def Pc.writes (p : Pc) : Bool := decide (p = .writing)

/-- Inside `reader_lock`, asleep or about to test again. -/
def Pc.waitsRead (p : Pc) : Bool := decide (p = .sleepRead) || decide (p = .wokenRead)

def Pc.waitsWrite (p : Pc) : Bool := decide (p = .sleepWrite) || decide (p = .wokenWrite)

/-! ## Wake-ups -/

/-- `pc'` differs from `pc` only in that some sleeping threads have been woken. -/
def OnlyWakes (pc pc' : T → Pc) : Prop :=
  ∀ t, pc' t = pc t ∨ (pc t = .sleepRead ∧ pc' t = .wokenRead) ∨
    (pc t = .sleepWrite ∧ pc' t = .wokenWrite)

omit [DecidableEq T] in
theorem OnlyWakes.refl (pc : T → Pc) : OnlyWakes pc pc := fun _ => Or.inl rfl

omit [DecidableEq T] in
theorem OnlyWakes.trans {pc pc' pc'' : T → Pc} (h : OnlyWakes pc pc')
    (h' : OnlyWakes pc' pc'') : OnlyWakes pc pc'' := by
  intro t
  rcases h t with h1 | ⟨h1, h2⟩ | ⟨h1, h2⟩ <;> rcases h' t with h3 | ⟨h3, h4⟩ | ⟨h3, h4⟩ <;>
    simp_all

theorem onlyWakes_update_read {pc : T → Pc} {t : T} (h : pc t = .sleepRead) :
    OnlyWakes pc (Function.update pc t .wokenRead) := by
  intro u
  by_cases hu : u = t
  · subst hu
    exact Or.inr (Or.inl ⟨h, by simp⟩)
  · exact Or.inl (by simp [hu])

theorem onlyWakes_update_write {pc : T → Pc} {t : T} (h : pc t = .sleepWrite) :
    OnlyWakes pc (Function.update pc t .wokenWrite) := by
  intro u
  by_cases hu : u = t
  · subst hu
    exact Or.inr (Or.inr ⟨h, by simp⟩)
  · exact Or.inl (by simp [hu])

theorem SignalRead.onlyWakes {pc pc' : T → Pc} (h : SignalRead pc pc') : OnlyWakes pc pc' := by
  cases h with
  | noWaiter _ => exact .refl _
  | wake t h => exact onlyWakes_update_read h

theorem SignalWrite.onlyWakes {pc pc' : T → Pc} (h : SignalWrite pc pc') : OnlyWakes pc pc' := by
  cases h with
  | noWaiter _ => exact .refl _
  | wake t h => exact onlyWakes_update_write h

omit [DecidableEq T] in
theorem onlyWakes_broadcastRead (pc : T → Pc) : OnlyWakes pc (broadcastRead pc) := by
  intro t
  by_cases h : pc t = .sleepRead
  · exact Or.inr (Or.inl ⟨h, by simp [broadcastRead, h]⟩)
  · exact Or.inl (by simp [broadcastRead, h])

theorem SignalLoop.onlyWakes {n_way i : ℤ} {pc pc' : T → Pc} (h : SignalLoop n_way i pc pc') :
    OnlyWakes pc pc' := by
  induction h with
  | done _ => exact .refl _
  | more _ hsig _ ih => exact (SignalRead.onlyWakes hsig).trans ih

/-- All three branches of `reader_unlock` signal one writer. -/
theorem ReaderUnlockSignals.signalWrite {rw : Rwlock} {pc pc' : T → Pc}
    (h : ReaderUnlockSignals rw pc pc') : SignalWrite pc pc' := by
  unfold ReaderUnlockSignals at h
  split at h
  · exact h
  · split at h <;> exact h

theorem WriterUnlockSignals.onlyWakes {rw : Rwlock} {pc pc' : T → Pc}
    (h : WriterUnlockSignals rw pc pc') : OnlyWakes pc pc' := by
  unfold WriterUnlockSignals at h
  split at h
  · obtain ⟨mid, hloop, hrest⟩ := h
    split at hrest
    · exact hloop.onlyWakes.trans (SignalWrite.onlyWakes hrest)
    · exact hrest ▸ hloop.onlyWakes
  · split at h
    · exact h ▸ onlyWakes_broadcastRead pc
    · exact SignalWrite.onlyWakes h
  · split at h
    · exact SignalWrite.onlyWakes h
    · exact h ▸ onlyWakes_broadcastRead pc

/-! ## The invariant -/

variable [Fintype T]

/-- The counters of the lock against the program points of all threads. -/
structure Counted (s : State T) : Prop where
  readers : s.rw.readers = count s.pc Pc.reads
  writers : s.rw.writers = count s.pc Pc.writes
  waiting_readers : s.rw.waiting_readers = count s.pc Pc.waitsRead
  waiting_writers : s.rw.waiting_writers = count s.pc Pc.waitsWrite

/-- At most one writer, and none beside a reader. -/
structure Exclusive (rw : Rwlock) : Prop where
  writers : rw.writers ≤ 1
  readers : 0 < rw.writers → rw.readers = 0

omit [DecidableEq T] in
theorem Counted.onlyWakes {rw : Rwlock} {pc pc' : T → Pc} (h : Counted ⟨rw, pc⟩)
    (hw : OnlyWakes pc pc') : Counted ⟨rw, pc'⟩ := by
  have hclass : ∀ f : Pc → Bool, f .sleepRead = f .wokenRead → f .sleepWrite = f .wokenWrite →
      count pc' f = count pc f := by
    intro f hr hwr
    apply count_congr
    intro t
    rcases hw t with h | ⟨h1, h2⟩ | ⟨h1, h2⟩
    · rw [h]
    · rw [h1, h2, hr]
    · rw [h1, h2, hwr]
  constructor
  · exact h.readers.trans (by rw [hclass Pc.reads rfl rfl])
  · exact h.writers.trans (by rw [hclass Pc.writes rfl rfl])
  · exact h.waiting_readers.trans (by rw [hclass Pc.waitsRead rfl rfl])
  · exact h.waiting_writers.trans (by rw [hclass Pc.waitsWrite rfl rfl])

/-- The counters after one thread moves, as the four equations a section has to
account for. -/
theorem Counted.update {s : State T} (h : Counted s) (rw : Rwlock) (t : T) (q : Pc)
    (hr : rw.readers + (s.pc t).reads.toNat = s.rw.readers + q.reads.toNat)
    (hw : rw.writers + (s.pc t).writes.toNat = s.rw.writers + q.writes.toNat)
    (hwr : rw.waiting_readers + (s.pc t).waitsRead.toNat =
      s.rw.waiting_readers + q.waitsRead.toNat)
    (hww : rw.waiting_writers + (s.pc t).waitsWrite.toNat =
      s.rw.waiting_writers + q.waitsWrite.toNat) :
    Counted ⟨rw, Function.update s.pc t q⟩ := by
  obtain ⟨h1, h2, h3, h4⟩ := h
  have c1 := count_update s.pc t q Pc.reads
  have c2 := count_update s.pc t q Pc.writes
  have c3 := count_update s.pc t q Pc.waitsRead
  have c4 := count_update s.pc t q Pc.waitsWrite
  constructor <;> simp only <;> omega

/-! ## Sections keep the invariant -/

theorem readerTries_counted {s : State T} (rw : Rwlock) (t : T) (h : Counted s)
    (hrw : rw = s.rw ∧ s.pc t = .wokenRead ∨ rw = s.rw.readerArrives ∧ s.pc t = .outside) :
    Counted (readerTries rw s.pc t) := by
  unfold readerTries
  rcases hrw with ⟨rfl, hpc⟩ | ⟨rfl, hpc⟩ <;> split <;> apply h.update <;>
    simp [hpc, Rwlock.readerArrives, Rwlock.readerEnters, Pc.reads, Pc.writes, Pc.waitsRead,
      Pc.waitsWrite]

theorem writerTries_counted {s : State T} (rw : Rwlock) (t : T) (h : Counted s)
    (hrw : rw = s.rw ∧ s.pc t = .wokenWrite ∨ rw = s.rw.writerArrives ∧ s.pc t = .outside) :
    Counted (writerTries rw s.pc t) := by
  unfold writerTries
  rcases hrw with ⟨rfl, hpc⟩ | ⟨rfl, hpc⟩ <;> split <;> apply h.update <;>
    simp [hpc, Rwlock.writerArrives, Rwlock.writerEnters, Pc.reads, Pc.writes, Pc.waitsRead,
      Pc.waitsWrite]

theorem step_counted {s s' : State T} {a : Action T} (h : Counted s) (hs : Step s a s') :
    Counted s' := by
  cases hs with
  | reader_lock t hpc => exact readerTries_counted _ t h (Or.inr ⟨rfl, hpc⟩)
  | reader_recheck t hpc => exact readerTries_counted _ t h (Or.inl ⟨rfl, hpc⟩)
  | reader_unlock t pc' hpc hsig =>
      refine Counted.onlyWakes ?_ (SignalWrite.onlyWakes hsig.signalWrite)
      apply h.update <;> simp [hpc, Rwlock.readerLeaves, Pc.reads, Pc.writes, Pc.waitsRead,
        Pc.waitsWrite]
  | writer_lock t hpc => exact writerTries_counted _ t h (Or.inr ⟨rfl, hpc⟩)
  | writer_recheck t hpc => exact writerTries_counted _ t h (Or.inl ⟨rfl, hpc⟩)
  | writer_unlock t pc' hpc hsig =>
      refine Counted.onlyWakes ?_ hsig.onlyWakes
      apply h.update <;> simp [hpc, Rwlock.writerLeaves, Pc.reads, Pc.writes, Pc.waitsRead,
        Pc.waitsWrite]
  | spurious_read t hpc => exact h.onlyWakes (onlyWakes_update_read hpc)
  | spurious_write t hpc => exact h.onlyWakes (onlyWakes_update_write hpc)

omit [DecidableEq T] [Fintype T] in
theorem readerWaits_false {rw : Rwlock} (h : rw.readerWaits = false) : rw.writers ≤ 0 := by
  simp only [Rwlock.readerWaits, Bool.or_eq_false_iff, decide_eq_false_iff_not] at h
  omega

omit [DecidableEq T] [Fintype T] in
theorem writerWaits_false {rw : Rwlock} (h : rw.writerWaits = false) :
    rw.writers ≤ 0 ∧ rw.readers ≤ 0 := by
  simp only [Rwlock.writerWaits, Bool.or_eq_false_iff, decide_eq_false_iff_not] at h
  omega

theorem step_exclusive {s s' : State T} {a : Action T} (hc : Counted s) (h : Exclusive s.rw)
    (hs : Step s a s') : Exclusive s'.rw := by
  obtain ⟨hr, hw, -, -⟩ := hc
  obtain ⟨h1, h2⟩ := h
  have readerCase : ∀ rw : Rwlock, rw.writers = s.rw.writers → rw.readers = s.rw.readers →
      ∀ t, Exclusive (readerTries rw s.pc t).rw := by
    intro rw ew er t
    unfold readerTries
    cases hwait : rw.readerWaits with
    | true => exact ⟨ew ▸ h1, fun hpos => er ▸ h2 (ew ▸ hpos)⟩
    | false =>
        have hle := readerWaits_false hwait
        constructor <;> simp only [Rwlock.readerEnters] <;> simp <;> omega
  have writerCase : ∀ rw : Rwlock, rw.writers = s.rw.writers → rw.readers = s.rw.readers →
      ∀ t, Exclusive (writerTries rw s.pc t).rw := by
    intro rw ew er t
    unfold writerTries
    cases hwait : rw.writerWaits with
    | true => exact ⟨ew ▸ h1, fun hpos => er ▸ h2 (ew ▸ hpos)⟩
    | false =>
        have hle := writerWaits_false hwait
        constructor <;> simp only [Rwlock.writerEnters] <;> simp <;> omega
  cases hs with
  | reader_lock t _ => exact readerCase s.rw.readerArrives rfl rfl t
  | reader_recheck t _ => exact readerCase _ rfl rfl t
  | reader_unlock t pc' hpc _ =>
      have hpos := count_pos_of (f := Pc.reads) (show Pc.reads (s.pc t) = true by rw [hpc]; rfl)
      constructor <;> simp only [Rwlock.readerLeaves] <;> omega
  | writer_lock t _ => exact writerCase s.rw.writerArrives rfl rfl t
  | writer_recheck t _ => exact writerCase _ rfl rfl t
  | writer_unlock t pc' _ _ =>
      constructor <;> simp only [Rwlock.writerLeaves] <;> omega
  | spurious_read t _ => exact ⟨h1, h2⟩
  | spurious_write t _ => exact ⟨h1, h2⟩

/-! ## Every reachable state -/

omit [DecidableEq T] in
theorem initial_counted {p : PRIORITY} {n garbage : BitVec 32} {s : State T}
    (h : Initial p n garbage s) : Counted s ∧ Exclusive s.rw := by
  subst h
  have hzero : ∀ f : Pc → Bool, f .outside = false →
      count (fun _ : T => Pc.outside) f = 0 := by
    intro f hf
    exact count_eq_zero.mpr fun _ => hf
  refine ⟨⟨?_, ?_, ?_, ?_⟩, ⟨by simp [rwlock_new], by simp [rwlock_new]⟩⟩
  · simp [rwlock_new, hzero Pc.reads rfl]
  · simp [rwlock_new, hzero Pc.writes rfl]
  · simp [rwlock_new, hzero Pc.waitsRead rfl]
  · simp [rwlock_new, hzero Pc.waitsWrite rfl]

/-- The invariant along any run, whatever side condition its steps also meet. -/
theorem reachable_counted {p : PRIORITY} {n garbage : BitVec 32}
    {ok : State T → Action T → Prop} {s : State T}
    (h : Reachable (Initial p n garbage) Step ok s) : Counted s ∧ Exclusive s.rw := by
  refine h.invariant (fun _ => initial_counted) ?_
  rintro s a s' ⟨hc, he⟩ - hs
  exact ⟨step_counted hc hs, step_exclusive hc he hs⟩

/-- In every reachable state the four counters are exact, at most one thread
writes, and no thread reads beside a writer. -/
theorem rwlock_exclusion {p : PRIORITY} {n garbage : BitVec 32} {s : State T}
    (h : Reachable (Initial p n garbage) Step Always s) :
    (∀ t u, s.pc t = .writing → s.pc u = .writing → t = u) ∧
    (∀ t u, s.pc t = .writing → s.pc u ≠ .reading) ∧
    Counted s := by
  obtain ⟨hc, he⟩ := reachable_counted h
  refine ⟨?_, ?_, hc⟩
  · intro t u ht hu
    have hle : count s.pc Pc.writes ≤ 1 := by
      have := he.writers
      rw [hc.writers] at this
      exact_mod_cast this
    exact count_le_one hle (by simp [ht, Pc.writes]) (by simp [hu, Pc.writes])
  · intro t u ht hu
    have hw : 0 < count s.pc Pc.writes := count_pos_of (t := t) (by simp [ht, Pc.writes])
    have hr : 0 < count s.pc Pc.reads := count_pos_of (t := u) (by simp [hu, Pc.reads])
    have hzero := he.readers (by rw [hc.writers]; exact_mod_cast hw)
    rw [hc.readers] at hzero
    omega

/-- A writer inside and a reader asleep behind it. -/
theorem rwlock_exclusion_reader_behind_writer : ∃ s : State (Fin 2),
    s.pc 0 = .writing ∧ s.pc 1 = .sleepRead ∧ Reachable (Initial .N_WAY 1 0) Step Always s ∧
    (∀ t u, s.pc t = .writing → s.pc u = .writing → t = u) ∧
    (∀ t u, s.pc t = .writing → s.pc u ≠ .reading) ∧
    Counted s := by
  have start : Reachable (Initial .N_WAY 1 0) Step Always
      (⟨rwlock_new .N_WAY 1 0, fun _ => .outside⟩ : State (Fin 2)) := .start rfl
  have locked := start.next trivial (.writer_lock 0 rfl)
  have behind := locked.next trivial (.reader_lock 1 rfl)
  exact ⟨_, rfl, rfl, behind, rwlock_exclusion behind⟩

end FavoriteAssignments.RwLock
