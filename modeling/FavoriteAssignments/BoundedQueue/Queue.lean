import Mathlib.Data.Int.Init
import Mathlib.Logic.Function.Basic

/-! # The bounded queue

The fields of `queue.c` and its two operations, cut at every statement. The
three semaphores are their values: `sem_wait` is a step only a positive value
allows, `sem_post` is always possible. -/

namespace FavoriteAssignments.BoundedQueue

/-- `queue` is the array, from slot 0 on. -/
structure Queue (E : Type*) where
  queue : ℤ → E
  size : ℤ
  capacity : ℤ
  front : ℤ
  rear : ℤ
  mutex : ℕ
  filled : ℕ
  empty : ℕ

/-- `calloc` fills the array with null pointers. -/
def queue_new {E : Type*} (null : E) (size : ℤ) : Queue E where
  queue := fun _ => null
  size := 0
  capacity := size
  front := 0
  rear := -1
  mutex := 1
  filled := 0
  empty := size.toNat

/-- The next statement of a thread. An operation's point carries the element it
pushes, or the element it has loaded. -/
inductive Pc (E : Type*) where
  | outside
  -- `queue_push`
  | push_wait_empty (elem : E)
  | push_wait_mutex (elem : E)
  | push_rear (elem : E)
  | push_store (elem : E)
  | push_size (elem : E)
  | push_post_mutex (elem : E)
  | push_post_filled (elem : E)
  -- `queue_pop`
  | pop_wait_filled
  | pop_wait_mutex
  | pop_load
  | pop_front (elem : E)
  | pop_size (elem : E)
  | pop_post_mutex (elem : E)
  | pop_post_empty (elem : E)

/-- The queue and its threads. The last three fields are history: what has been
stored and loaded so far, and which slots hold an element not yet loaded. -/
structure State (T E : Type*) where
  q : Queue E
  pc : T → Pc E
  pushed : List E
  popped : List E
  unread : ℤ → Bool

variable {T E : Type*} [DecidableEq T]

namespace State

def goto (s : State T E) (t : T) (p : Pc E) : State T E :=
  { s with pc := Function.update s.pc t p }

/-- `q->queue[q->rear] = elem;` -/
def store (s : State T E) (elem : E) : State T E :=
  { s with
    q := { s.q with queue := Function.update s.q.queue s.q.rear elem }
    pushed := s.pushed ++ [elem]
    unread := Function.update s.unread s.q.rear true }

/-- `*elem = q->queue[q->front];` -/
def load (s : State T E) : State T E :=
  { s with
    popped := s.popped ++ [s.q.queue s.q.front]
    unread := Function.update s.unread s.q.front false }

end State

/-- One statement of one thread. -/
inductive Step : State T E → T → State T E → Prop where
  | call_push {s} (t : T) (elem : E) (h : s.pc t = .outside) :
      Step s t (s.goto t (.push_wait_empty elem))
  | push_wait_empty {s} (t : T) (elem : E) (h : s.pc t = .push_wait_empty elem)
      (hpos : 0 < s.q.empty) :
      Step s t (State.goto { s with q := { s.q with empty := s.q.empty - 1 } } t
        (.push_wait_mutex elem))
  | push_wait_mutex {s} (t : T) (elem : E) (h : s.pc t = .push_wait_mutex elem)
      (hpos : 0 < s.q.mutex) :
      Step s t (State.goto { s with q := { s.q with mutex := s.q.mutex - 1 } } t
        (.push_rear elem))
  | push_rear {s} (t : T) (elem : E) (h : s.pc t = .push_rear elem) :
      Step s t (State.goto { s with
        q := { s.q with rear := (s.q.rear + 1).tmod s.q.capacity } } t (.push_store elem))
  | push_store {s} (t : T) (elem : E) (h : s.pc t = .push_store elem) :
      Step s t ((s.store elem).goto t (.push_size elem))
  | push_size {s} (t : T) (elem : E) (h : s.pc t = .push_size elem) :
      Step s t (State.goto { s with q := { s.q with size := s.q.size + 1 } } t
        (.push_post_mutex elem))
  | push_post_mutex {s} (t : T) (elem : E) (h : s.pc t = .push_post_mutex elem) :
      Step s t (State.goto { s with q := { s.q with mutex := s.q.mutex + 1 } } t
        (.push_post_filled elem))
  | push_post_filled {s} (t : T) (elem : E) (h : s.pc t = .push_post_filled elem) :
      Step s t (State.goto { s with q := { s.q with filled := s.q.filled + 1 } } t .outside)
  | call_pop {s} (t : T) (h : s.pc t = .outside) :
      Step s t (s.goto t .pop_wait_filled)
  | pop_wait_filled {s} (t : T) (h : s.pc t = .pop_wait_filled) (hpos : 0 < s.q.filled) :
      Step s t (State.goto { s with q := { s.q with filled := s.q.filled - 1 } } t
        .pop_wait_mutex)
  | pop_wait_mutex {s} (t : T) (h : s.pc t = .pop_wait_mutex) (hpos : 0 < s.q.mutex) :
      Step s t (State.goto { s with q := { s.q with mutex := s.q.mutex - 1 } } t .pop_load)
  | pop_load {s} (t : T) (h : s.pc t = .pop_load) :
      Step s t (s.load.goto t (.pop_front (s.q.queue s.q.front)))
  | pop_front {s} (t : T) (elem : E) (h : s.pc t = .pop_front elem) :
      Step s t (State.goto { s with
        q := { s.q with front := (s.q.front + 1).tmod s.q.capacity } } t (.pop_size elem))
  | pop_size {s} (t : T) (elem : E) (h : s.pc t = .pop_size elem) :
      Step s t (State.goto { s with q := { s.q with size := s.q.size - 1 } } t
        (.pop_post_mutex elem))
  | pop_post_mutex {s} (t : T) (elem : E) (h : s.pc t = .pop_post_mutex elem) :
      Step s t (State.goto { s with q := { s.q with mutex := s.q.mutex + 1 } } t
        (.pop_post_empty elem))
  | pop_post_empty {s} (t : T) (elem : E) (h : s.pc t = .pop_post_empty elem) :
      Step s t (State.goto { s with q := { s.q with empty := s.q.empty + 1 } } t .outside)

/-- Every thread outside, the queue fresh from `queue_new`. -/
def Initial (null : E) (capacity : ℤ) (s : State T E) : Prop :=
  s = ⟨queue_new null capacity, fun _ => .outside, [], [], fun _ => false⟩

end FavoriteAssignments.BoundedQueue
