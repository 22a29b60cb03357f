import Mathlib.Data.BitVec
import Mathlib.Logic.Function.Basic

/-! # The reader-writer lock

The counters of `rwlock.c` and the sections run under `rw->mutex`. A thread
blocked in `pthread_cond_wait` is a program point of that thread; waking it is
a choice the condition variable makes. -/

namespace FavoriteAssignments.RwLock

inductive PRIORITY where
  | READERS | WRITERS | N_WAY
  deriving DecidableEq, Repr

/-- The four thread counters are bounded by the number of threads and are kept as
integers; `served_readers` is not, and wraps like the `int` it is. -/
structure Rwlock where
  readers : ℤ
  writers : ℤ
  waiting_writers : ℤ
  waiting_readers : ℤ
  priority : PRIORITY
  n_way : ℤ
  served_readers : ℤ
  deriving DecidableEq, Repr

/-- The value an `int` holds after a result leaves its range. -/
def int32 (z : ℤ) : ℤ := z.bmod (2 ^ 32)

/-- `served_readers` keeps what `malloc` left in the block. -/
def rwlock_new (p : PRIORITY) (n garbage : BitVec 32) : Rwlock where
  readers := 0
  writers := 0
  waiting_writers := 0
  waiting_readers := 0
  priority := p
  n_way := n.toInt
  served_readers := garbage.toInt

/-! ## Sections under the mutex -/

namespace Rwlock

/-- The loop condition of `reader_lock`. -/
def readerWaits (rw : Rwlock) : Bool :=
  decide (rw.writers > 0) ||
  (decide (rw.priority = .WRITERS) && decide (rw.waiting_writers > 0)) ||
  (decide (rw.waiting_writers > 0) && decide (rw.served_readers ≥ rw.n_way))

/-- The loop condition of `writer_lock`. -/
def writerWaits (rw : Rwlock) : Bool :=
  decide (rw.writers > 0) || decide (rw.readers > 0) ||
  (decide (rw.priority = .N_WAY) && decide (rw.waiting_readers > 0) &&
    decide (rw.served_readers = 0))

def readerArrives (rw : Rwlock) : Rwlock :=
  { rw with waiting_readers := rw.waiting_readers + 1 }

def readerEnters (rw : Rwlock) : Rwlock :=
  { rw with
    served_readers := int32 (rw.served_readers + 1)
    waiting_readers := rw.waiting_readers - 1
    readers := rw.readers + 1 }

def readerLeaves (rw : Rwlock) : Rwlock :=
  { rw with readers := rw.readers - 1 }

def writerArrives (rw : Rwlock) : Rwlock :=
  { rw with waiting_writers := rw.waiting_writers + 1 }

def writerEnters (rw : Rwlock) : Rwlock :=
  { rw with
    waiting_writers := rw.waiting_writers - 1
    writers := rw.writers + 1 }

def writerLeaves (rw : Rwlock) : Rwlock :=
  { rw with
    writers := rw.writers - 1
    served_readers := 0 }

/-- Neither kind of holder is inside. -/
def Free (rw : Rwlock) : Prop := rw.readers = 0 ∧ rw.writers = 0

end Rwlock

/-! ## Threads -/

/-- Where a thread is. A sleeping thread is blocked on a condition variable; a
woken one has been released and must test its loop condition again. -/
inductive Pc where
  | outside
  | sleepRead | wokenRead | reading
  | sleepWrite | wokenWrite | writing
  deriving DecidableEq, Repr

structure State (T : Type*) where
  rw : Rwlock
  pc : T → Pc

variable {T : Type*} [DecidableEq T]

/-- `pthread_cond_signal`: one thread blocked on the condition, if there is one. -/
inductive Signal (asleep woken : Pc) (pc : T → Pc) : (T → Pc) → Prop where
  | noWaiter (h : ∀ t, pc t ≠ asleep) : Signal asleep woken pc pc
  | wake (t : T) (h : pc t = asleep) : Signal asleep woken pc (Function.update pc t woken)

abbrev SignalRead : (T → Pc) → (T → Pc) → Prop := Signal .sleepRead .wokenRead

abbrev SignalWrite : (T → Pc) → (T → Pc) → Prop := Signal .sleepWrite .wokenWrite

/-- `pthread_cond_broadcast(&rw->read)`. -/
def broadcastRead (pc : T → Pc) : T → Pc :=
  fun t => if pc t = .sleepRead then .wokenRead else pc t

/-- `while (i <= rw->n_way) { pthread_cond_signal(&rw->read); i++; }`. With
`n_way` at the largest `int` the loop has no last iteration. -/
inductive SignalLoop (n_way : ℤ) : ℤ → (T → Pc) → (T → Pc) → Prop where
  | done {i : ℤ} {pc : T → Pc} (h : n_way < i) : SignalLoop n_way i pc pc
  | more {i : ℤ} {pc pc' pc'' : T → Pc} (h : i ≤ n_way) :
      SignalRead pc pc' → SignalLoop n_way (int32 (i + 1)) pc' pc'' →
      SignalLoop n_way i pc pc''

/-- The signals of `reader_unlock`, after `rw->readers--`. -/
def ReaderUnlockSignals (rw : Rwlock) (pc pc' : T → Pc) : Prop :=
  if rw.priority = .WRITERS ∧ rw.waiting_writers > 0 ∧ rw.readers = 0 then SignalWrite pc pc'
  else if rw.priority = .READERS ∧ rw.readers = 0 then SignalWrite pc pc'
  else SignalWrite pc pc'

/-- The signals of `writer_unlock`, after its two assignments. -/
def WriterUnlockSignals (rw : Rwlock) (pc pc' : T → Pc) : Prop :=
  match rw.priority with
  | .N_WAY => ∃ mid, SignalLoop rw.n_way 0 pc mid ∧
      (if rw.waiting_readers = 0 then SignalWrite mid pc' else pc' = mid)
  | .READERS =>
      if rw.waiting_readers > 0 then pc' = broadcastRead pc else SignalWrite pc pc'
  | .WRITERS =>
      if rw.waiting_writers > 0 then SignalWrite pc pc' else pc' = broadcastRead pc

/-! ## Steps -/

inductive Action (T : Type*) where
  | reader_lock (t : T)
  | reader_recheck (t : T)
  | reader_unlock (t : T)
  | writer_lock (t : T)
  | writer_recheck (t : T)
  | writer_unlock (t : T)
  | spurious (t : T)

/-- From the test of the loop condition in `reader_lock` to the next wait or to
the end of the call. -/
def readerTries (rw : Rwlock) (pc : T → Pc) (t : T) : State T :=
  if rw.readerWaits then ⟨rw, Function.update pc t .sleepRead⟩
  else ⟨rw.readerEnters, Function.update pc t .reading⟩

def writerTries (rw : Rwlock) (pc : T → Pc) (t : T) : State T :=
  if rw.writerWaits then ⟨rw, Function.update pc t .sleepWrite⟩
  else ⟨rw.writerEnters, Function.update pc t .writing⟩

/-- One section run under the mutex, or a wake-up nobody asked for. -/
inductive Step : State T → Action T → State T → Prop where
  | reader_lock {s} (t : T) (h : s.pc t = .outside) :
      Step s (.reader_lock t) (readerTries s.rw.readerArrives s.pc t)
  | reader_recheck {s} (t : T) (h : s.pc t = .wokenRead) :
      Step s (.reader_recheck t) (readerTries s.rw s.pc t)
  | reader_unlock {s} (t : T) (pc' : T → Pc) (h : s.pc t = .reading)
      (hsig : ReaderUnlockSignals s.rw.readerLeaves (Function.update s.pc t .outside) pc') :
      Step s (.reader_unlock t) ⟨s.rw.readerLeaves, pc'⟩
  | writer_lock {s} (t : T) (h : s.pc t = .outside) :
      Step s (.writer_lock t) (writerTries s.rw.writerArrives s.pc t)
  | writer_recheck {s} (t : T) (h : s.pc t = .wokenWrite) :
      Step s (.writer_recheck t) (writerTries s.rw s.pc t)
  | writer_unlock {s} (t : T) (pc' : T → Pc) (h : s.pc t = .writing)
      (hsig : WriterUnlockSignals s.rw.writerLeaves (Function.update s.pc t .outside) pc') :
      Step s (.writer_unlock t) ⟨s.rw.writerLeaves, pc'⟩
  | spurious_read {s} (t : T) (h : s.pc t = .sleepRead) :
      Step s (.spurious t) ⟨s.rw, Function.update s.pc t .wokenRead⟩
  | spurious_write {s} (t : T) (h : s.pc t = .sleepWrite) :
      Step s (.spurious t) ⟨s.rw, Function.update s.pc t .wokenWrite⟩

/-- Every thread outside, the lock fresh from `rwlock_new`. -/
def Initial (p : PRIORITY) (n garbage : BitVec 32) (s : State T) : Prop :=
  s = ⟨rwlock_new p n garbage, fun _ => .outside⟩

end FavoriteAssignments.RwLock
