import FavoriteAssignments.HttpServer.RequestParser
import FavoriteAssignments.RwLock.Lock
import FavoriteAssignments.Library.Transition

/-! # The server

Worker threads running `request_parser` over one hash table, the locks behind its
nodes and the files. A thread waiting in `reader_lock` or `writer_lock` may test
its loop condition at any time, which covers every order of wake-ups. -/

namespace FavoriteAssignments.HttpServer

open RwLock Transition

/-- The list behind `hashTableObj` with its counter; a lock is its address. The counter is an `int`
in the source, and a natural number below `2 ^ 31` nodes. -/
structure HashTable where
  nodes : List (Uri × ℕ)
  length : ℕ

def hashLockLookup (nodes : List (Uri × ℕ)) (uri : Uri) : Option ℕ :=
  match nodes with
  | [] => none
  | (u, lock) :: rest => if u = uri then some lock else hashLockLookup rest uri

def attach (hash : HashTable) (uri : Uri) (lock : ℕ) : HashTable where
  nodes := if hash.length = 0 then [(uri, lock)] else hash.nodes ++ [(uri, lock)]
  length := hash.length + 1

/-- The shared state. The last five fields are history: the calls of each thread's
current connection, whether the file existed when the thread last took a writer
lock, its place in the order of writers of that file, what each of them has
reported, and how often a `PUT` failed to open its file while holding a lock. -/
structure Server (T : Type*) where
  pc : T → Pc
  mutex : Option T
  hash : HashTable
  lock : ℕ → Rwlock
  fresh : ℕ
  files : Uri → Bool
  calls : T → List Event
  found : T → Bool
  ticket : T → ℕ
  reports : Uri → List (Option Response)
  openFailures : ℕ → ℕ

variable {T : Type*} [DecidableEq T]

def Server.setLock (s : Server T) (l : ℕ) (rw : Rwlock) : Server T :=
  { s with lock := Function.update s.lock l rw }

/-- What a call of one thread does to the shared state; `none` where its outcome is not
the one the state gives, or where it blocks. -/
def effect (s : Server T) (t : T) : Pc → Event → Option (Server T)
  | .put_access uri, .access existed => if existed = s.files uri then some s else none
  | _, .pthread_mutex_lock =>
      if s.mutex.isNone then some { s with mutex := some t } else none
  | _, .pthread_mutex_unlock => some { s with mutex := none }
  | .lookup _ uri, .hashLockLookup lock =>
      if lock = hashLockLookup s.hash.nodes uri then some s else none
  | .create _ uri, .attach l garbage =>
      if l = s.fresh then
        some { s with
          hash := attach s.hash uri l
          fresh := s.fresh + 1
          lock := Function.update s.lock l (rwlock_new .N_WAY 1 garbage) }
      else none
  | _, .reader_arrives l => some (s.setLock l (s.lock l).readerArrives)
  | _, .reader_lock l =>
      if (s.lock l).readerWaits then none else some (s.setLock l (s.lock l).readerEnters)
  | _, .reader_unlock l => some (s.setLock l (s.lock l).readerLeaves)
  | _, .writer_arrives l => some (s.setLock l (s.lock l).writerArrives)
  | .wait _ uri _, .writer_lock l =>
      if (s.lock l).writerWaits then none
      else
        some { s with
          lock := Function.update s.lock l (s.lock l).writerEnters
          found := Function.update s.found t (s.files uri)
          ticket := Function.update s.ticket t (s.reports uri).length
          reports := Function.update s.reports uri (s.reports uri ++ [none]) }
  | _, .writer_unlock l => some (s.setLock l (s.lock l).writerLeaves)
  | .put_open _ uri _, .open_write none =>
      some { s with files := Function.update s.files uri true }
  | .put_open _ _ l, .open_write (some _) =>
      some { s with openFailures := Function.update s.openFailures l (s.openFailures l + 1) }
  | .put_received existed uri _, .fprintf _ _ _ _ =>
      let mine := some (putResponse existed)
      some { s with
        reports := Function.update s.reports uri ((s.reports uri).set (s.ticket t) mine) }
  | _, _ => some s

/-- A worker takes the next connection, or makes a call. -/
inductive Action (T : Type*) where
  | accept (t : T)
  | call (t : T) (e : Event)

def step (s : Server T) : Action T → Option (Server T)
  | .accept t =>
      if s.pc t = .returned then
        some { s with
          pc := Function.update s.pc t .start
          calls := Function.update s.calls t [] }
      else none
  | .call t e =>
      match next (s.pc t) e, effect s t (s.pc t) e with
      | some p, some s' =>
          some { s' with
            pc := Function.update s.pc t p
            calls := Function.update s.calls t (s.calls t ++ [e]) }
      | _, _ => none

def Step (s : Server T) (a : Action T) (s' : Server T) : Prop := step s a = some s'

/-- Every worker waiting for a connection, an empty table, any files. -/
def initial (files : Uri → Bool) : Server T where
  pc := fun _ => .returned
  mutex := none
  hash := ⟨[], 0⟩
  lock := fun _ => rwlock_new .N_WAY 1 0
  fresh := 0
  files := files
  calls := fun _ => []
  found := fun _ => false
  ticket := fun _ => 0
  reports := fun _ => []
  openFailures := fun _ => 0

/-- The states reached by steps that meet `ok`. -/
abbrev Reaches (files : Uri → Bool) (ok : Server T → Action T → Prop) : Server T → Prop :=
  Reachable (fun s => s = initial files) Step ok

/-- A run of the executable `step`, read as a reachable state. -/
theorem reaches_run (files : Uri → Bool) (ok : Server T → Action T → Prop)
    [∀ s a, Decidable (ok s a)] (actions : List (Action T)) (f : Server T → Bool)
    (h : (runWhile ok step (initial files) actions).any f = true) :
    ∃ s, Reaches files ok s ∧ f s = true :=
  exists_reachable_of_run rfl h

end FavoriteAssignments.HttpServer
