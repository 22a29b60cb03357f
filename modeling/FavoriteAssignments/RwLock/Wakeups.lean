import FavoriteAssignments.RwLock.Exclusion

/-! # Wake-ups

Whether the signals of the two unlock functions reach every sleeping thread
depends only on the lock's fields and on how many threads sleep or have been
woken on each side. The run is followed through these numbers. -/

namespace FavoriteAssignments.RwLock

open ThreadCount Transition

/-! ## The view of a state -/

/-- The lock and the sizes of its two queues, each split into sleeping and woken. -/
structure View where
  rw : Rwlock
  sleepRead : ℕ
  wokenRead : ℕ
  sleepWrite : ℕ
  wokenWrite : ℕ

def Pc.is (q p : Pc) : Bool := decide (p = q)

variable {T : Type*} [DecidableEq T] [Fintype T]

omit [DecidableEq T] in
def view (rw : Rwlock) (pc : T → Pc) : View where
  rw := rw
  sleepRead := count pc (Pc.is .sleepRead)
  wokenRead := count pc (Pc.is .wokenRead)
  sleepWrite := count pc (Pc.is .sleepWrite)
  wokenWrite := count pc (Pc.is .wokenWrite)

namespace View

/-- One `pthread_cond_signal(&rw->write)`. -/
def signalWrite (v : View) : View :=
  { v with
    sleepWrite := v.sleepWrite - 1
    wokenWrite := v.wokenWrite + min 1 v.sleepWrite }

/-- `k` times `pthread_cond_signal(&rw->read)`. -/
def signalReads (k : ℕ) (v : View) : View :=
  { v with
    sleepRead := v.sleepRead - k
    wokenRead := v.wokenRead + min k v.sleepRead }

theorem signalReads_zero (v : View) : v.signalReads 0 = v := by
  simp [signalReads]

theorem signalReads_signalReads (j k : ℕ) (v : View) :
    (v.signalReads j).signalReads k = v.signalReads (j + k) := by
  simp only [signalReads, View.mk.injEq, true_and, and_true]
  omega

/-- The lock's own counts against the queues, and its holders. -/
structure Consistent (v : View) : Prop where
  waiting_readers : v.rw.waiting_readers = v.sleepRead + v.wokenRead
  waiting_writers : v.rw.waiting_writers = v.sleepWrite + v.wokenWrite
  readers : 0 ≤ v.rw.readers
  writers : 0 ≤ v.rw.writers
  exclusive : Exclusive v.rw

end View

omit [DecidableEq T] in
theorem count_waitsRead (pc : T → Pc) :
    count pc Pc.waitsRead = count pc (Pc.is .sleepRead) + count pc (Pc.is .wokenRead) := by
  apply count_add
  · intro p
    rfl
  · intro p hp
    cases p <;> simp_all [Pc.is]

omit [DecidableEq T] in
theorem count_waitsWrite (pc : T → Pc) :
    count pc Pc.waitsWrite = count pc (Pc.is .sleepWrite) + count pc (Pc.is .wokenWrite) := by
  apply count_add
  · intro p
    rfl
  · intro p hp
    cases p <;> simp_all [Pc.is]

omit [DecidableEq T] in
theorem view_consistent {s : State T} (hc : Counted s) (he : Exclusive s.rw) :
    (view s.rw s.pc).Consistent := by
  have h3 := hc.waiting_readers
  have h4 := hc.waiting_writers
  rw [count_waitsRead] at h3
  rw [count_waitsWrite] at h4
  refine ⟨?_, ?_, ?_, ?_, he⟩
  · simpa [view] using h3
  · simpa [view] using h4
  · simp [view, hc.readers]
  · simp [view, hc.writers]

/-! ## How a thread's move shows in the view -/

/-- One thread moves from `p` to `q`. -/
def View.move (p q : Pc) (v : View) : View where
  rw := v.rw
  sleepRead := v.sleepRead + (Pc.is .sleepRead q).toNat - (Pc.is .sleepRead p).toNat
  wokenRead := v.wokenRead + (Pc.is .wokenRead q).toNat - (Pc.is .wokenRead p).toNat
  sleepWrite := v.sleepWrite + (Pc.is .sleepWrite q).toNat - (Pc.is .sleepWrite p).toNat
  wokenWrite := v.wokenWrite + (Pc.is .wokenWrite q).toNat - (Pc.is .wokenWrite p).toNat

theorem view_move (rw : Rwlock) {pc : T → Pc} {t : T} {p : Pc} (h : pc t = p) (q : Pc) :
    view rw (Function.update pc t q) = (view rw pc).move p q := by
  subst h
  have hmoved := count_update pc t q
  simp only [view, View.move, View.mk.injEq, true_and]
  refine ⟨?_, ?_, ?_, ?_⟩ <;> rw [← hmoved, Nat.add_sub_cancel]

/-- A holder that leaves is in neither queue. -/
theorem view_leave (rw : Rwlock) {pc : T → Pc} {t : T}
    (h : pc t = .reading ∨ pc t = .writing) :
    view rw (Function.update pc t .outside) = view rw pc := by
  rcases h with h | h <;> rw [view_move rw h] <;> simp [View.move, Pc.is]

theorem view_signalWrite (rw : Rwlock) {pc pc' : T → Pc} (h : SignalWrite pc pc') :
    view rw pc' = (view rw pc).signalWrite := by
  cases h with
  | noWaiter h =>
      have hzero : count pc (Pc.is .sleepWrite) = 0 :=
        count_eq_zero.mpr fun t => by simpa [Pc.is] using h t
      simp [view, View.signalWrite, hzero]
  | wake t h =>
      have hpos := count_pos_of (f := Pc.is .sleepWrite) (show Pc.is .sleepWrite (pc t) = true by
        simp [h, Pc.is])
      have hone : min 1 (view rw pc).sleepWrite = 1 := Nat.min_eq_left hpos
      rw [view_move rw h, View.signalWrite, hone]
      simp [View.move, Pc.is]

theorem view_signalRead (rw : Rwlock) {pc pc' : T → Pc} (h : SignalRead pc pc') :
    view rw pc' = (view rw pc).signalReads 1 := by
  cases h with
  | noWaiter h =>
      have hzero : count pc (Pc.is .sleepRead) = 0 :=
        count_eq_zero.mpr fun t => by simpa [Pc.is] using h t
      simp [view, View.signalReads, hzero]
  | wake t h =>
      have hpos := count_pos_of (f := Pc.is .sleepRead) (show Pc.is .sleepRead (pc t) = true by
        simp [h, Pc.is])
      have hone : min 1 (view rw pc).sleepRead = 1 := Nat.min_eq_left hpos
      rw [view_move rw h, View.signalReads, hone]
      simp [View.move, Pc.is]

omit [DecidableEq T] in
theorem view_broadcastRead (rw : Rwlock) (pc : T → Pc) :
    view rw (broadcastRead pc) = (view rw pc).signalReads (view rw pc).sleepRead := by
  have hnone : count (broadcastRead pc) (Pc.is .sleepRead) = 0 :=
    count_eq_zero.mpr fun t => by
      by_cases h : pc t = .sleepRead <;> simp [broadcastRead, Pc.is, h]
  have hall : count (broadcastRead pc) Pc.waitsRead = count pc Pc.waitsRead :=
    count_congr fun t => by
      by_cases h : pc t = .sleepRead <;> simp [broadcastRead, Pc.waitsRead, h]
  have hsleep : count (broadcastRead pc) (Pc.is .sleepWrite) = count pc (Pc.is .sleepWrite) :=
    count_congr fun t => by
      by_cases h : pc t = .sleepRead <;> simp [broadcastRead, Pc.is, h]
  have hwoken : count (broadcastRead pc) (Pc.is .wokenWrite) = count pc (Pc.is .wokenWrite) :=
    count_congr fun t => by
      by_cases h : pc t = .sleepRead <;> simp [broadcastRead, Pc.is, h]
  rw [count_waitsRead, count_waitsRead, hnone] at hall
  simp only [view, View.signalReads, View.mk.injEq, true_and, hnone, hsleep, hwoken, and_true]
  omega

omit [DecidableEq T] [Fintype T] in
theorem int32_eq {z : ℤ} (h1 : -(2 ^ 31) ≤ z) (h2 : z < 2 ^ 31) : int32 z = z := by
  apply Int.bmod_eq_of_le <;> omega

omit [DecidableEq T] [Fintype T] in
theorem int32_bounds (z : ℤ) : -(2 ^ 31) ≤ int32 z ∧ int32 z < 2 ^ 31 := by
  have h1 := Int.le_bmod (x := z) (m := 2 ^ 32) (by omega)
  have h2 := Int.bmod_lt (x := z) (m := 2 ^ 32) (by omega)
  unfold int32
  omega

/-- The loop of `writer_unlock` signals at least as often as its bounds say. -/
theorem view_signalLoop (rw : Rwlock) {n_way i : ℤ} {pc pc' : T → Pc}
    (h : SignalLoop n_way i pc pc') (hi : -(2 ^ 31) ≤ i) :
    ∃ k : ℕ, n_way + 1 - i ≤ k ∧ view rw pc' = (view rw pc).signalReads k := by
  induction h with
  | done h => exact ⟨0, by omega, (View.signalReads_zero _).symm⟩
  | @more i pc mid pc' h hsig hrest ih =>
      obtain ⟨k, hk, hview⟩ := ih (int32_bounds _).1
      refine ⟨1 + k, ?_, ?_⟩
      · have hle : int32 (i + 1) ≤ i + 1 := by
          by_cases hlt : i + 1 < 2 ^ 31
          · exact (int32_eq (by omega) hlt).le
          · have := int32_bounds (i + 1)
            omega
        push_cast
        omega
      · rw [hview, view_signalRead rw hsig, View.signalReads_signalReads]

/-! ## Sections on views -/

namespace View

/-- An arriving thread counts as woken: its first test is the test a woken thread repeats. -/
def readerArrives (v : View) : View :=
  { v with rw := v.rw.readerArrives, wokenRead := v.wokenRead + 1 }

def writerArrives (v : View) : View :=
  { v with rw := v.rw.writerArrives, wokenWrite := v.wokenWrite + 1 }

def readerTries (v : View) : View :=
  if v.rw.readerWaits then
    { v with sleepRead := v.sleepRead + 1, wokenRead := v.wokenRead - 1 }
  else { v with rw := v.rw.readerEnters, wokenRead := v.wokenRead - 1 }

def writerTries (v : View) : View :=
  if v.rw.writerWaits then
    { v with sleepWrite := v.sleepWrite + 1, wokenWrite := v.wokenWrite - 1 }
  else { v with rw := v.rw.writerEnters, wokenWrite := v.wokenWrite - 1 }

/-- The signals of `writer_unlock`, its loop making `k` of them. -/
def writerSignals (k : ℕ) (v : View) : View :=
  match v.rw.priority with
  | .N_WAY =>
      if v.rw.waiting_readers = 0 then (v.signalReads k).signalWrite else v.signalReads k
  | .READERS =>
      if v.rw.waiting_readers > 0 then v.signalReads v.sleepRead else v.signalWrite
  | .WRITERS =>
      if v.rw.waiting_writers > 0 then v.signalWrite else v.signalReads v.sleepRead

end View

theorem view_readerArrives (rw : Rwlock) {pc : T → Pc} {t : T} (h : pc t = .outside) :
    view rw.readerArrives (Function.update pc t .wokenRead) = (view rw pc).readerArrives := by
  rw [view_move _ h]
  simp [View.move, View.readerArrives, view, Pc.is]

theorem view_writerArrives (rw : Rwlock) {pc : T → Pc} {t : T} (h : pc t = .outside) :
    view rw.writerArrives (Function.update pc t .wokenWrite) = (view rw pc).writerArrives := by
  rw [view_move _ h]
  simp [View.move, View.writerArrives, view, Pc.is]

theorem view_readerTries (rw : Rwlock) {pc : T → Pc} {t : T} (h : pc t = .wokenRead) :
    view (readerTries rw pc t).rw (readerTries rw pc t).pc = (view rw pc).readerTries := by
  unfold readerTries View.readerTries
  have hrw : (view rw pc).rw = rw := rfl
  rw [hrw]
  cases rw.readerWaits with
  | true =>
      simp only [if_true]
      rw [view_move _ h]
      simp [View.move, Pc.is, hrw]
  | false =>
      simp only [Bool.false_eq_true, if_false]
      rw [view_move _ h]
      simp [View.move, view, Pc.is]

theorem view_writerTries (rw : Rwlock) {pc : T → Pc} {t : T} (h : pc t = .wokenWrite) :
    view (writerTries rw pc t).rw (writerTries rw pc t).pc = (view rw pc).writerTries := by
  unfold writerTries View.writerTries
  have hrw : (view rw pc).rw = rw := rfl
  rw [hrw]
  cases rw.writerWaits with
  | true =>
      simp only [if_true]
      rw [view_move _ h]
      simp [View.move, Pc.is, hrw]
  | false =>
      simp only [Bool.false_eq_true, if_false]
      rw [view_move _ h]
      simp [View.move, view, Pc.is]

theorem view_writerSignals {rw : Rwlock} {pc pc' : T → Pc} (h : WriterUnlockSignals rw pc pc') :
    ∃ k : ℕ, rw.n_way + 1 ≤ k ∧ view rw pc' = (view rw pc).writerSignals k := by
  have hrw : (view rw pc).rw = rw := rfl
  unfold WriterUnlockSignals at h
  cases hp : rw.priority with
  | N_WAY =>
      simp only [hp] at h
      obtain ⟨mid, hloop, hrest⟩ := h
      obtain ⟨k, hk, hmid⟩ := view_signalLoop rw hloop (by omega)
      refine ⟨k, by omega, ?_⟩
      simp only [View.writerSignals, hrw, hp, ← hmid]
      split at hrest
      · rw [if_pos (by assumption), view_signalWrite rw hrest]
      · rw [if_neg (by assumption), hrest]
  | READERS =>
      simp only [hp] at h
      refine ⟨(rw.n_way + 1).toNat, by omega, ?_⟩
      simp only [View.writerSignals, hrw, hp]
      split at h
      · rw [if_pos (by assumption), h, view_broadcastRead]
      · rw [if_neg (by assumption), view_signalWrite rw h]
  | WRITERS =>
      simp only [hp] at h
      refine ⟨(rw.n_way + 1).toNat, by omega, ?_⟩
      simp only [View.writerSignals, hrw, hp]
      split at h
      · rw [if_pos (by assumption), view_signalWrite rw h]
      · rw [if_neg (by assumption), h, view_broadcastRead]

omit [Fintype T] in
theorem readerTries_update (rw : Rwlock) (pc : T → Pc) (t : T) (q : Pc) :
    readerTries rw (Function.update pc t q) t = readerTries rw pc t := by
  simp [readerTries]

omit [Fintype T] in
theorem writerTries_update (rw : Rwlock) (pc : T → Pc) (t : T) (q : Pc) :
    writerTries rw (Function.update pc t q) t = writerTries rw pc t := by
  simp [writerTries]

/-! ## Steps whose signals suffice -/

/-- The lock gives way in turns of no reader at all. -/
def NoTurns (rw : Rwlock) : Prop := rw.priority = .N_WAY ∧ rw.n_way ≤ 0

/-- The signals of `writer_unlock` reach someone who will run, and leave no reader
asleep unless a writer waits. -/
def SignalsReach (v : View) : Prop :=
  match v.rw.priority with
  | .WRITERS => True
  | .READERS => 1 ≤ v.rw.n_way ∨ v.rw.waiting_readers = 0 ∨ v.rw.waiting_writers = 0 ∨
      0 < v.wokenWrite
  | .N_WAY => 0 < v.rw.waiting_writers ∨ v.sleepRead ≤ max (v.rw.n_way + 1) 0

/-- What a step has to meet for its signals to be enough. With `n_way` at most 0 it
must not leave both kinds waiting on a free lock whose count of served readers is 0:
there each kind waits for the other. -/
def Heard (s : State T) : Action T → Prop
  | .reader_lock _ => NoTurns s.rw → s.rw.Free → s.rw.served_readers = 0 →
      s.rw.waiting_writers = 0
  | .writer_lock _ => NoTurns s.rw → s.rw.Free → s.rw.served_readers = 0 →
      s.rw.waiting_readers = 0
  | .reader_unlock _ => NoTurns s.rw → s.rw.readers = 1 → s.rw.served_readers = 0 →
      s.rw.waiting_readers = 0 ∨ s.rw.waiting_writers = 0
  | .writer_unlock _ => (NoTurns s.rw → s.rw.waiting_readers = 0 ∨ s.rw.waiting_writers = 0) ∧
      SignalsReach (view s.rw s.pc)
  | .reader_recheck _ => True
  | .writer_recheck _ => True
  | .spurious _ => False

/-! ## The loop conditions as propositions -/

omit [DecidableEq T] [Fintype T] in
theorem readerWaits_iff (rw : Rwlock) : rw.readerWaits = true ↔
    0 < rw.writers ∨ (rw.priority = .WRITERS ∧ 0 < rw.waiting_writers) ∨
      (0 < rw.waiting_writers ∧ rw.n_way ≤ rw.served_readers) := by
  simp [Rwlock.readerWaits, or_assoc]

omit [DecidableEq T] [Fintype T] in
theorem writerWaits_iff (rw : Rwlock) : rw.writerWaits = true ↔
    0 < rw.writers ∨ 0 < rw.readers ∨
      (rw.priority = .N_WAY ∧ 0 < rw.waiting_readers ∧ rw.served_readers = 0) := by
  simp [Rwlock.writerWaits, or_assoc, and_assoc]

/-! ## The invariant -/

/-- What keeps a sleeping thread from being forgotten. -/
structure Attended (v : View) : Prop where
  n_way_lt : v.rw.n_way < 2 ^ 31
  /-- A sleeping reader has a writer before it. -/
  guarded : 0 < v.sleepRead → 0 < v.rw.writers ∨ 0 < v.rw.waiting_writers
  /-- A writer asleep on a free lock has a woken writer, or a woken reader that will enter. -/
  writer : v.rw.Free → 0 < v.sleepWrite → 0 < v.wokenWrite ∨
    (v.rw.priority ≠ .WRITERS ∧ 1 ≤ v.rw.n_way ∧ v.rw.served_readers = 0 ∧ 0 < v.wokenRead)
  /-- Writers give way only to readers one of whom has been woken and will enter. -/
  givesWay : v.rw.priority = .N_WAY → v.rw.Free → v.rw.served_readers = 0 →
    0 < v.rw.waiting_readers →
    0 < v.wokenRead ∧ (1 ≤ v.rw.n_way ∨ v.rw.waiting_writers = 0)
  /-- While readers sleep, `served_readers` counts the readers inside. -/
  served : v.rw.priority = .N_WAY → 1 ≤ v.rw.n_way → 0 < v.sleepRead → v.rw.writers = 0 →
    0 ≤ v.rw.served_readers ∧ (0 < v.rw.readers → 1 ≤ v.rw.served_readers)

namespace Attended

variable {v : View}

theorem readerArrives (ha : Attended v) (hc : v.Consistent)
    (h : NoTurns v.rw → v.rw.Free → v.rw.served_readers = 0 → v.rw.waiting_writers = 0) :
    Attended v.readerArrives := by
  obtain ⟨h1, h2, h3, h4, h5⟩ := ha
  obtain ⟨c1, c2, c3, c4, c5⟩ := hc
  simp only [NoTurns, Rwlock.Free] at *
  constructor <;> simp only [View.readerArrives, Rwlock.readerArrives, Rwlock.Free] <;> grind

theorem writerArrives (ha : Attended v) (hc : v.Consistent)
    (h : NoTurns v.rw → v.rw.Free → v.rw.served_readers = 0 → v.rw.waiting_readers = 0) :
    Attended v.writerArrives := by
  obtain ⟨h1, h2, h3, h4, h5⟩ := ha
  obtain ⟨c1, c2, c3, c4, c5⟩ := hc
  simp only [NoTurns, Rwlock.Free] at *
  constructor <;> simp only [View.writerArrives, Rwlock.writerArrives, Rwlock.Free] <;> grind

theorem readerTries (ha : Attended v) (hc : v.Consistent) : Attended v.readerTries := by
  obtain ⟨h1, h2, h3, h4, h5⟩ := ha
  obtain ⟨c1, c2, c3, c4, c5⟩ := hc
  unfold View.readerTries
  cases hwait : v.rw.readerWaits with
  | true =>
      rw [readerWaits_iff] at hwait
      simp only [Rwlock.Free] at *
      constructor <;> simp only [if_true, Rwlock.Free] <;> grind
  | false =>
      have hno := mt (readerWaits_iff v.rw).mpr (by simp [hwait])
      simp only [Rwlock.Free] at *
      -- a reader that enters past sleeping readers has fewer than `n_way` before it
      have hserved : v.rw.priority = .N_WAY → 1 ≤ v.rw.n_way → 0 < v.sleepRead →
          int32 (v.rw.served_readers + 1) = v.rw.served_readers + 1 ∧
            0 ≤ v.rw.served_readers := by
        intro hp hn hs
        have hwriters : v.rw.writers = 0 := by omega
        have hnonneg := (h5 hp hn hs hwriters).1
        have hlt : v.rw.served_readers < v.rw.n_way := by
          by_contra hge
          have := h2 hs
          exact hno (Or.inr (Or.inr ⟨by omega, by omega⟩))
        exact ⟨int32_eq (by omega) (by omega), hnonneg⟩
      constructor <;> simp only [Bool.false_eq_true, if_false, Rwlock.readerEnters, Rwlock.Free] <;>
        grind

theorem writerTries (ha : Attended v) (hc : v.Consistent) (hw : 0 < v.wokenWrite) :
    Attended v.writerTries := by
  obtain ⟨h1, h2, h3, h4, h5⟩ := ha
  obtain ⟨c1, c2, c3, c4, c5⟩ := hc
  unfold View.writerTries
  cases hwait : v.rw.writerWaits with
  | true =>
      rw [writerWaits_iff] at hwait
      simp only [Rwlock.Free] at *
      constructor <;> simp only [if_true, Rwlock.Free] <;> grind
  | false =>
      have hno := mt (writerWaits_iff v.rw).mpr (by simp [hwait])
      simp only [Rwlock.Free] at *
      constructor <;> simp only [Bool.false_eq_true, if_false, Rwlock.writerEnters, Rwlock.Free] <;>
        grind

theorem readerLeaves (ha : Attended v) (hc : v.Consistent) (hr : 0 < v.rw.readers)
    (h : NoTurns v.rw → v.rw.readers = 1 → v.rw.served_readers = 0 →
      v.rw.waiting_readers = 0 ∨ v.rw.waiting_writers = 0) :
    Attended ({ v with rw := v.rw.readerLeaves } : View).signalWrite := by
  obtain ⟨h1, h2, h3, h4, h5⟩ := ha
  obtain ⟨c1, c2, c3, c4, c5⟩ := hc
  simp only [NoTurns, Rwlock.readerLeaves, Rwlock.Free] at *
  constructor <;> simp only [View.signalWrite, Rwlock.Free] <;> grind

theorem writerLeaves (ha : Attended v) (hc : v.Consistent) (hw : 0 < v.rw.writers) {k : ℕ}
    (hk : v.rw.n_way + 1 ≤ k)
    (h : NoTurns v.rw → v.rw.waiting_readers = 0 ∨ v.rw.waiting_writers = 0)
    (hr : SignalsReach v) :
    Attended (({ v with rw := v.rw.writerLeaves } : View).writerSignals k) := by
  obtain ⟨h1, h2, h3, h4, h5⟩ := ha
  obtain ⟨c1, c2, c3, c4, c5, c6⟩ := hc
  unfold SignalsReach at hr
  cases hp : v.rw.priority with
  | N_WAY =>
      simp only [NoTurns, Rwlock.writerLeaves, Rwlock.Free, View.writerSignals, hp] at *
      split <;> constructor <;> simp only [View.signalReads, View.signalWrite, Rwlock.Free] <;>
        grind
  | READERS =>
      simp only [Rwlock.writerLeaves, View.writerSignals, hp] at *
      split <;> constructor <;> simp only [View.signalReads, View.signalWrite, Rwlock.Free] <;>
        grind
  | WRITERS =>
      simp only [Rwlock.writerLeaves, View.writerSignals, hp] at *
      split <;> constructor <;> simp only [View.signalReads, View.signalWrite, Rwlock.Free] <;>
        grind

end Attended

/-! ## Every run of such steps -/

theorem reader_tries_attended {s : State T} {t : T} (hc : Counted s) (he : Exclusive s.rw)
    (h : s.pc t = .wokenRead) (ha : Attended (view s.rw s.pc)) :
    Attended (view (readerTries s.rw s.pc t).rw (readerTries s.rw s.pc t).pc) := by
  rw [view_readerTries s.rw h]
  exact ha.readerTries (view_consistent hc he)

theorem writer_tries_attended {s : State T} {t : T} (hc : Counted s) (he : Exclusive s.rw)
    (h : s.pc t = .wokenWrite) (ha : Attended (view s.rw s.pc)) :
    Attended (view (writerTries s.rw s.pc t).rw (writerTries s.rw s.pc t).pc) := by
  rw [view_writerTries s.rw h]
  exact ha.writerTries (view_consistent hc he) (count_pos_of (t := t) (by simp [h, Pc.is]))

theorem step_attended {s s' : State T} {a : Action T} (hc : Counted s) (he : Exclusive s.rw)
    (ha : Attended (view s.rw s.pc)) (hok : Heard s a) (hs : Step s a s') :
    Attended (view s'.rw s'.pc) := by
  have hv := view_consistent hc he
  cases hs with
  | reader_lock t hpc =>
      -- the arrival first, then the test as for a woken thread
      have harr : Counted ⟨s.rw.readerArrives, Function.update s.pc t .wokenRead⟩ := by
        apply hc.update <;> simp [hpc, Rwlock.readerArrives, Pc.reads, Pc.writes, Pc.waitsRead,
          Pc.waitsWrite]
      rw [← readerTries_update _ _ t .wokenRead]
      refine reader_tries_attended harr ⟨he.writers, he.readers⟩ (by simp) ?_
      rw [view_readerArrives _ hpc]
      exact ha.readerArrives hv hok
  | reader_recheck t hpc => exact reader_tries_attended hc he hpc ha
  | reader_unlock t pc' hpc hsig =>
      rw [view_signalWrite _ hsig.signalWrite, view_leave _ (Or.inl hpc)]
      refine ha.readerLeaves hv ?_ hok
      have := count_pos_of (f := Pc.reads) (show Pc.reads (s.pc t) = true by rw [hpc]; rfl)
      have hreaders := hc.readers
      simp only [view]
      omega
  | writer_lock t hpc =>
      have harr : Counted ⟨s.rw.writerArrives, Function.update s.pc t .wokenWrite⟩ := by
        apply hc.update <;> simp [hpc, Rwlock.writerArrives, Pc.reads, Pc.writes, Pc.waitsRead,
          Pc.waitsWrite]
      rw [← writerTries_update _ _ t .wokenWrite]
      refine writer_tries_attended harr ⟨he.writers, he.readers⟩ (by simp) ?_
      rw [view_writerArrives _ hpc]
      exact ha.writerArrives hv hok
  | writer_recheck t hpc => exact writer_tries_attended hc he hpc ha
  | writer_unlock t pc' hpc hsig =>
      obtain ⟨k, hk, hview⟩ := view_writerSignals hsig
      rw [hview, view_leave _ (Or.inr hpc)]
      refine ha.writerLeaves hv ?_ hk hok.1 hok.2
      have := count_pos_of (f := Pc.writes) (show Pc.writes (s.pc t) = true by rw [hpc]; rfl)
      have hwriters := hc.writers
      simp only [view]
      omega
  | spurious_read t _ => exact hok.elim
  | spurious_write t _ => exact hok.elim

omit [DecidableEq T] in
theorem initial_attended {p : PRIORITY} {n garbage : BitVec 32} {s : State T}
    (h : Initial p n garbage s) : Attended (view s.rw s.pc) := by
  subst h
  have hzero : ∀ q : Pc, q ≠ .outside → count (fun _ : T => Pc.outside) (Pc.is q) = 0 := by
    intro q hq
    exact count_eq_zero.mpr fun _ => by simpa [Pc.is] using hq.symm
  constructor
  · have := n.toInt_lt
    simpa [view, rwlock_new] using this
  · simp [view, hzero]
  · simp [view, hzero]
  · simp [view, rwlock_new]
  · simp [view, hzero]

theorem reachable_attended {p : PRIORITY} {n garbage : BitVec 32} {s : State T}
    (h : Reachable (Initial p n garbage) Step Heard s) : Attended (view s.rw s.pc) := by
  have hinv : (Counted s ∧ Exclusive s.rw) ∧ Attended (view s.rw s.pc) := by
    refine h.invariant (P := fun s => (Counted s ∧ Exclusive s.rw) ∧ Attended (view s.rw s.pc))
      (fun _ h => ⟨initial_counted h, initial_attended h⟩) ?_
    rintro s a s' ⟨⟨hc, he⟩, ha⟩ hok hs
    exact ⟨⟨step_counted hc hs, step_exclusive hc he hs⟩, step_attended hc he ha hok hs⟩
  exact hinv.2

/-- A free lock, nobody about to test its loop condition, and somebody asleep. -/
def Stranded (s : State T) : Prop :=
  s.rw.Free ∧ (∀ t, s.pc t ≠ .wokenRead ∧ s.pc t ≠ .wokenWrite) ∧
    ∃ t, s.pc t = .sleepRead ∨ s.pc t = .sleepWrite

/-- No run whose steps are all heard strands a thread. -/
theorem no_stranded_waiter {p : PRIORITY} {n garbage : BitVec 32} {s : State T}
    (h : Reachable (Initial p n garbage) Step Heard s) : ¬ Stranded s := by
  rintro ⟨hfree, hwoken, t, ht⟩
  have ha := reachable_attended h
  obtain ⟨hc, he⟩ := reachable_counted h
  have hv := view_consistent hc he
  have hkr : (view s.rw s.pc).wokenRead = 0 :=
    count_eq_zero.mpr fun u => by simpa [Pc.is] using (hwoken u).1
  have hkw : (view s.rw s.pc).wokenWrite = 0 :=
    count_eq_zero.mpr fun u => by simpa [Pc.is] using (hwoken u).2
  have hnoWriter : ¬ 0 < (view s.rw s.pc).sleepWrite := by
    intro hpos
    rcases ha.writer hfree hpos with h | h <;> omega
  rcases ht with ht | ht
  · have hpos : 0 < (view s.rw s.pc).sleepRead := count_pos_of (t := t) (by simp [ht, Pc.is])
    have hwaiting := hv.waiting_writers
    rcases ha.guarded hpos with h | h
    · have hwriters : (view s.rw s.pc).rw.writers = 0 := hfree.2
      omega
    · omega
  · exact hnoWriter (count_pos_of (t := t) (by simp [ht, Pc.is]))

omit [DecidableEq T] [Fintype T] in
theorem not_noTurns {rw : Rwlock} (h : 0 < rw.n_way) : ¬ NoTurns rw := by
  rintro ⟨-, hn⟩
  omega

omit [Fintype T] in
theorem writerUnlockSignals_nWay {rw : Rwlock} {pc pc' : T → Pc} (hp : rw.priority = .N_WAY)
    (hw : rw.waiting_readers ≠ 0) (h : SignalLoop rw.n_way 0 pc pc') :
    WriterUnlockSignals rw pc pc' := by
  simp only [WriterUnlockSignals, hp]
  exact ⟨pc', h, by simp [hw]⟩

/-- A reader woken by the writer that left it asleep. -/
theorem no_stranded_waiter_one_reader : ∃ s : State (Fin 2), s.pc 1 = .wokenRead ∧
    Reachable (Initial .N_WAY 1 0) Step Heard s ∧ ¬ Stranded s := by
  have start : Reachable (Initial .N_WAY 1 0) Step Heard
      (⟨rwlock_new .N_WAY 1 0, fun _ => .outside⟩ : State (Fin 2)) := .start rfl
  have locked := start.next (by exact fun h => absurd h (not_noTurns (by decide)))
    (.writer_lock 0 rfl)
  have behind := locked.next (by exact fun h => absurd h (not_noTurns (by decide)))
    (.reader_lock 1 rfl)
  have woken := behind.next
    (by exact And.intro (fun h => absurd h (not_noTurns (by decide))) (Or.inr (by decide)))
    (.writer_unlock 0 _ rfl (writerUnlockSignals_nWay rfl (by decide)
      (.more (by decide) (.wake 1 rfl) (.more (by decide) (.noWaiter (by decide))
        (.done (by decide))))))
  exact ⟨_, rfl, woken, no_stranded_waiter woken⟩

/-- Every step but a spurious wake-up. -/
def NotSpurious (_ : State T) (a : Action T) : Prop := ∀ t, a ≠ .spurious t

/-- With `n_way = 1` a leaving writer signals two of the three readers asleep behind
it, and the third is never woken. -/
theorem third_reader_stranded : ∃ s : State (Fin 4),
    Reachable (Initial .N_WAY 1 0) Step NotSpurious s ∧ Stranded s := by
  have start : Reachable (Initial .N_WAY 1 0) Step NotSpurious
      (⟨rwlock_new .N_WAY 1 0, fun _ => .outside⟩ : State (Fin 4)) := .start rfl
  have locked := start.next (by nofun) (.writer_lock 0 rfl)
  have one := locked.next (by nofun) (.reader_lock 1 rfl)
  have two := one.next (by nofun) (.reader_lock 2 rfl)
  have three := two.next (by nofun) (.reader_lock 3 rfl)
  have unlocked := three.next (by nofun) (.writer_unlock 0 _ rfl
    (writerUnlockSignals_nWay rfl (by decide) (.more (by decide) (.wake 1 rfl)
      (.more (by decide) (.wake 2 rfl) (.done (by decide))))))
  have enter1 := unlocked.next (by nofun) (.reader_recheck 1 rfl)
  have enter2 := enter1.next (by nofun) (.reader_recheck 2 rfl)
  have leave1 := enter2.next (by nofun) (.reader_unlock 1 _ rfl (.noWaiter (by decide)))
  have leave2 := leave1.next (by nofun) (.reader_unlock 2 _ rfl (.noWaiter (by decide)))
  exact ⟨_, leave2, ⟨rfl, rfl⟩, by decide, 3, Or.inl rfl⟩

end FavoriteAssignments.RwLock
