import FavoriteAssignments.BoundedQueue.Fifo
import FavoriteAssignments.HttpServer.Locks
import Mathlib.Algebra.Order.Group.Multiset
import Mathlib.Algebra.Order.BigOperators.Group.Finset
import Mathlib.Data.Fintype.BigOperators

/-! # The dispatcher and its workers

`main` accepts connections and pushes their descriptors, the workers pop them,
run `request_parser` and close them. The threads are `none` for `main` and
`some w` for a worker; each moves by a statement of the queue, by a call of
`request_parser` or by a statement of its own loop. -/

namespace FavoriteAssignments.HttpServer

open Transition ThreadCount

/-- Where a worker stands in its loop, with its local `connfd`. -/
inductive Stage where
  | popping
  | parsing (connfd : ℤ)
  | closing (connfd : ℤ)

/-- `connfd` is the local of `main` between `listener_accept` and `queue_push`;
`opened` are the sockets the kernel holds open for the process. The last two
fields are history: what `listener_accept` has returned and what has been closed.
`conn_delete` is taken to leave the socket open, as the `close` behind it assumes. -/
structure Program (W : Type*) where
  queue : BoundedQueue.State (Option W) ℤ
  server : Server W
  stage : W → Stage
  connfd : Option ℤ
  opened : Finset ℤ
  accepted : List ℤ
  closed : List ℤ

variable {W : Type*} [DecidableEq W]

/-- A worker enters `request_parser`. -/
def Server.enter (s : Server W) (w : W) : Server W :=
  { s with
    pc := Function.update s.pc w .start
    calls := Function.update s.calls w [] }

/-- One statement of one thread. `listener_accept` returns a descriptor that is
not open, or `-1`. -/
inductive Program.Step : Program W → Option W → Program W → Prop where
  | listener_accept {s} (fd : ℤ) (hnone : s.connfd = none)
      (hpc : s.queue.pc none = .outside) (hfd : fd = -1 ∨ 0 ≤ fd ∧ fd ∉ s.opened) :
      Step s none { s with
        connfd := some fd
        opened := if 0 ≤ fd then insert fd s.opened else s.opened
        accepted := s.accepted ++ [fd] }
  | queue_push {s} (fd : ℤ) (hfd : s.connfd = some fd) (hpc : s.queue.pc none = .outside) :
      Step s none { s with
        connfd := none
        queue := s.queue.goto none (.push_wait_empty fd) }
  | pushing {s q} (hpc : s.queue.pc none ≠ .outside) (h : BoundedQueue.Step s.queue none q) :
      Step s none { s with queue := q }
  | queue_pop {s} (w : W) (hstage : s.stage w = .popping)
      (hpc : s.queue.pc (some w) = .outside) :
      Step s (some w) { s with queue := s.queue.goto (some w) .pop_wait_filled }
  | popping {s q} (w : W) (hpc : s.queue.pc (some w) ≠ .outside)
      (hlast : ∀ fd, s.queue.pc (some w) ≠ .pop_post_empty fd)
      (h : BoundedQueue.Step s.queue (some w) q) : Step s (some w) { s with queue := q }
  | popped {s q} (w : W) (fd : ℤ) (hpc : s.queue.pc (some w) = .pop_post_empty fd)
      (h : BoundedQueue.Step s.queue (some w) q) :
      Step s (some w) { s with
        queue := q
        stage := Function.update s.stage w (.parsing fd)
        server := s.server.enter w }
  | parsing_call {s server} (w : W) (e : Event) (fd : ℤ) (hstage : s.stage w = .parsing fd)
      (h : HttpServer.Step s.server (.call w e) server) :
      Step s (some w) { s with server := server }
  | returned {s} (w : W) (fd : ℤ) (hstage : s.stage w = .parsing fd)
      (hpc : s.server.pc w = .returned) :
      Step s (some w) { s with stage := Function.update s.stage w (.closing fd) }
  | close {s} (w : W) (fd : ℤ) (hstage : s.stage w = .closing fd) :
      Step s (some w) { s with
        stage := Function.update s.stage w .popping
        opened := s.opened.erase fd
        closed := s.closed ++ [fd] }

/-- `queue_new(t)`, `newHT()` and `t` workers at the head of their loops. -/
def Program.initial (files : Uri → Bool) (t : ℤ) : Program W where
  queue := ⟨BoundedQueue.queue_new 0 t, fun _ => .outside, [], [], fun _ => false⟩
  server := HttpServer.initial files
  stage := fun _ => .popping
  connfd := none
  opened := ∅
  accepted := []
  closed := []

/-- The runs of a server with as many queue slots as workers. -/
abbrev Program.Reaches [Fintype W] (files : Uri → Bool) : Program W → Prop :=
  Reachable (fun s => s = Program.initial files (Fintype.card W)) Program.Step Always

end FavoriteAssignments.HttpServer

/-! ## What a thread of the queue holds -/

namespace FavoriteAssignments.BoundedQueue

variable {T E : Type*}

namespace Pc

/-- The element a pusher has not stored yet. -/
def offers : Pc E → List E
  | .push_wait_empty e | .push_wait_mutex e | .push_rear e | .push_store e => [e]
  | _ => []

/-- The element a popper has loaded. -/
def takes : Pc E → Multiset E
  | .pop_front e | .pop_size e | .pop_post_mutex e | .pop_post_empty e => {e}
  | _ => 0

def pushes : Pc E → Bool
  | .push_wait_empty _ | .push_wait_mutex _ | .push_rear _ | .push_store _ => true
  | .push_size _ | .push_post_mutex _ | .push_post_filled _ => true
  | _ => false

def pops : Pc E → Bool
  | .pop_wait_filled | .pop_wait_mutex | .pop_load | .pop_front _ => true
  | .pop_size _ | .pop_post_mutex _ | .pop_post_empty _ => true
  | _ => false

theorem offers_of_not_pushes {p : Pc E} (h : p.pushes = false) : p.offers = [] := by
  cases p <;> first | rfl | exact absurd h (by simp [pushes])

end Pc

variable [DecidableEq T] {s s' : State T E} {t : T}

/-- A statement in the middle of an operation: the thread stays in it or leaves
it, what it offers and the history of stores stay together, and so do what it
has loaded and the history of loads. -/
structure Moves (s : State T E) (t : T) (p : Pc E) (s' : State T E) : Prop where
  pc : s'.pc = Function.update s.pc t p
  pushes : p.pushes = true → (s.pc t).pushes = true
  pops : p.pops = true → (s.pc t).pops = true
  pushed : s'.pushed ++ p.offers = s.pushed ++ (s.pc t).offers
  popped : (∀ e, s.pc t ≠ .pop_post_empty e) →
    (s'.popped : Multiset E) + (s.pc t).takes = s.popped + p.takes
  last : (∃ e, s.pc t = .pop_post_empty e) → p = .outside ∧ s'.popped = s.popped

end FavoriteAssignments.BoundedQueue

/-! ## Where the accepted connections are -/

namespace FavoriteAssignments.HttpServer

open Transition ThreadCount

variable {W : Type*}

/-- The descriptor a worker is serving. -/
def Stage.held : Stage → Multiset ℤ
  | .popping => 0
  | .parsing fd | .closing fd => {fd}

/-- What `listener_accept` has returned and `main` has not stored in the queue. -/
def Program.inMain (s : Program W) : List ℤ := (s.queue.pc none).offers ++ s.connfd.toList

/-- The descriptors the workers have taken and not closed. -/
def Program.inWorkers [Fintype W] (s : Program W) : Multiset ℤ :=
  ∑ t, (s.queue.pc t).takes + ∑ w, (s.stage w).held

structure Program.Invariant [Fintype W] (s : Program W) : Prop where
  main : ∀ fd, s.connfd = some fd → s.queue.pc none = .outside
  main_pushes : (s.queue.pc none).pops = false
  worker_pops : ∀ w, (s.queue.pc (some w)).pushes = false
  serving : ∀ w, s.stage w ≠ .popping → s.queue.pc (some w) = .outside
  idle : ∀ w, (∀ fd, s.stage w ≠ .parsing fd) → s.server.pc w = .returned
  calls : ∀ w, s.stage w ≠ .popping → run .start (s.server.calls w) = some (s.server.pc w)
  accepted : s.accepted = s.queue.pushed ++ s.inMain
  popped : (s.queue.popped : Multiset ℤ) = s.closed + s.inWorkers

section Steps

variable [DecidableEq W] [Fintype W] {s s' : Program W} {q : BoundedQueue.State (Option W) ℤ}

omit [Fintype W] in
/-- What a worker does to the queue leaves what `main` offers. -/
theorem moves_pushed {t : Option W} {p : BoundedQueue.Pc ℤ}
    (hs : BoundedQueue.Moves s.queue t p q)
    (hworker : ∀ w, (s.queue.pc (some w)).pushes = false) :
    q.pushed ++ (q.pc none).offers = s.queue.pushed ++ (s.queue.pc none).offers := by
  rw [hs.pc]
  cases t with
  | none => rw [Function.update_self, hs.pushed]
  | some w =>
      have hp : p.pushes = false := by
        cases hpush : p.pushes with
        | false => rfl
        | true => rw [← hworker w, hs.pushes hpush]
      have hpushed := hs.pushed
      rw [p.offers_of_not_pushes hp, (s.queue.pc (some w)).offers_of_not_pushes (hworker w),
        List.append_nil, List.append_nil] at hpushed
      rw [hpushed, Function.update_of_ne (by simp)]

omit [Fintype W] in
/-- The roles of the threads in the queue are kept. -/
theorem moves_roles {t : Option W} {p : BoundedQueue.Pc ℤ}
    (hs : BoundedQueue.Moves s.queue t p q) (hmain : (s.queue.pc none).pops = false)
    (hworker : ∀ w, (s.queue.pc (some w)).pushes = false) :
    (q.pc none).pops = false ∧ ∀ w, (q.pc (some w)).pushes = false := by
  rw [hs.pc]
  constructor
  · by_cases ht : t = none
    · subst ht
      cases hpop : p.pops with
      | false => simpa using hpop
      | true => rw [← hmain, hs.pops hpop]; simpa using hpop
    · rwa [Function.update_of_ne (Ne.symm ht)]
  · intro w
    by_cases ht : t = some w
    · subst ht
      cases hpush : p.pushes with
      | false => simpa using hpush
      | true => rw [← hworker w, hs.pushes hpush]; simpa using hpush
    · rw [Function.update_of_ne (Ne.symm ht)]
      exact hworker w

/-- A statement of the queue that hands nothing over to `request_parser`. -/
theorem Program.Invariant.move (h : s.Invariant) {t : Option W} {p : BoundedQueue.Pc ℤ}
    (hs : BoundedQueue.Moves s.queue t p q) (hpc : s.queue.pc t ≠ .outside)
    (hlast : ∀ fd, s.queue.pc t ≠ .pop_post_empty fd) :
    Program.Invariant { s with queue := q } := by
  obtain ⟨hmain, hworker⟩ := moves_roles hs h.main_pushes h.worker_pops
  have hother : ∀ u, s.queue.pc u = .outside → q.pc u = .outside := by
    intro u hu
    have hne : u ≠ t := by
      rintro rfl
      exact hpc hu
    rw [hs.pc, Function.update_of_ne hne, hu]
  refine ⟨fun fd hfd => hother none (h.main fd hfd), hmain, hworker,
    fun w hw => hother _ (h.serving w hw), h.idle, h.calls, ?_, ?_⟩
  · rw [Program.inMain, ← List.append_assoc, moves_pushed hs h.worker_pops, List.append_assoc]
    exact h.accepted
  · have hsum := sum_update s.queue.pc t p BoundedQueue.Pc.takes
    have hmoved := hs.popped hlast
    have hpopped := h.popped
    rw [← hs.pc] at hsum
    simp only [Program.inWorkers] at hpopped ⊢
    ext fd
    replace hsum := congrArg (Multiset.count fd) hsum
    replace hmoved := congrArg (Multiset.count fd) hmoved
    replace hpopped := congrArg (Multiset.count fd) hpopped
    simp only [Multiset.count_add] at hsum hmoved hpopped ⊢
    omega

end Steps

/-! ## Every run of the program -/

section Runs

variable [DecidableEq W] [Fintype W] {s s' : Program W} {files : Uri → Bool}

/-- What worker `w` has taken from the queue and not closed. -/
def Program.hand (s : Program W) (w : W) : Multiset ℤ :=
  (s.queue.pc (some w)).takes + (s.stage w).held

end Runs

end FavoriteAssignments.HttpServer
