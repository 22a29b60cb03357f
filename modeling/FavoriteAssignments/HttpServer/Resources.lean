import FavoriteAssignments.HttpServer.Balance

/-! # Connections and descriptors released

Each request makes one connection object and opens at most one file. The `GET` of a file
closes it and returns in front of `conn_delete`; the `GET` of a directory goes on to
`conn_delete` and does not close it. -/

namespace FavoriteAssignments.HttpServer

/-- A successful `open`. -/
def Event.opens : Event → Bool
  | .open_read none | .open_write none => true
  | _ => false

/-- How many connection objects and descriptors there are, and how many were given back. -/
structure Tally where
  made : ℕ
  deleted : ℕ
  opened : ℕ
  closed : ℕ
  deriving DecidableEq

def tally (calls : List Event) : Tally where
  made := calls.count .conn_new
  deleted := calls.count .conn_delete
  opened := calls.countP Event.opens
  closed := calls.count .close

/-- The connection object is deleted once, and so is closed what was opened. -/
def Releases (calls : List Event) : Prop :=
  (tally calls).made = 1 ∧ (tally calls).deleted = 1 ∧ (tally calls).closed = (tally calls).opened

/-- The objects and descriptors that were not given back. -/
def Tally.left (t : Tally) : ℕ := t.made - t.deleted + (t.opened - t.closed)

def leftBehind (requests : List (List Event)) : ℕ :=
  (requests.map fun calls => (tally calls).left).sum

/-! ## Along the calls of a connection -/

/-- What is live at a program point. With `read`, a `GET` has opened its file. -/
def Live (read : Bool) (t : Tally) : Pc → Prop
  | .start => read = false ∧ t = ⟨0, 0, 0, 0⟩
  | .get_fstat _ _ | .get_send _ _ | .get_sent _ _ | .get_unlock _ | .get_close =>
      read = true ∧ t = ⟨1, 0, 1, 0⟩
  | .get_error _ _ _ | .out_send _ _ | .out_unlock _ => t = ⟨1, 0, read.toNat, 0⟩
  | .put_recv _ _ _ | .put_received _ _ _ | .put_unlock _ _ | .put_close _ =>
      read = false ∧ t = ⟨1, 0, 1, 0⟩
  | .finish _ => read = false ∧ (t = ⟨1, 0, 0, 0⟩ ∨ t = ⟨1, 0, 1, 1⟩)
  | .delete => if read then t = ⟨1, 0, 1, 0⟩ else t = ⟨1, 0, 0, 0⟩ ∨ t = ⟨1, 0, 1, 1⟩
  | .returned =>
      if read then t = ⟨1, 1, 1, 0⟩ ∨ t = ⟨1, 0, 1, 1⟩
      else t = ⟨1, 1, 0, 0⟩ ∨ t = ⟨1, 1, 1, 1⟩
  | _ => read = false ∧ t = ⟨1, 0, 0, 0⟩

def Tally.add (t u : Tally) : Tally where
  made := t.made + u.made
  deleted := t.deleted + u.deleted
  opened := t.opened + u.opened
  closed := t.closed + u.closed

theorem tally_append (calls rest : List Event) :
    tally (calls ++ rest) = (tally calls).add (tally rest) := by
  simp [tally, Tally.add]

theorem next_live {p p' : Pc} {e : Event} (h : next p e = some p') {read : Bool} {t : Tally}
    (hl : Live read t p) :
    Live (read || decide (e = .open_read none)) (t.add (tally [e])) p' := by
  cases read <;> cases next_cases h
  -- both for a `PUT` that did not open its file and for one that closed it
  case false.finish => rcases hl with ⟨-, rfl | rfl⟩ <;> simp [Live, Tally.add, tally, Event.opens]
  case false.delete => rcases hl with rfl | rfl <;> simp [Live, Tally.add, tally, Event.opens]
  all_goals simp_all [Live, Tally.add, tally, Event.opens]

/-- What is live when a connection is done. -/
theorem live_of_completes {calls : List Event} (h : Completes calls) :
    Live (decide (.open_read none ∈ calls)) (tally calls) .returned := by
  have hstep : ∀ done p e p', next p e = some p' →
      Live (decide (.open_read none ∈ done)) (tally done) p →
      Live (decide (.open_read none ∈ done ++ [e])) (tally (done ++ [e])) p' := by
    intro done p e p' hnext hl
    have hmem : decide (.open_read none ∈ done ++ [e]) =
        (decide (.open_read none ∈ done) || decide (e = .open_read none)) := by
      simp [eq_comm]
    rw [tally_append, hmem]
    exact next_live hnext hl
  exact run_invariant hstep [] h ⟨rfl, rfl⟩

/-- A `GET` that opens its file leaves either the object or the descriptor behind. -/
theorem released_or_left {calls : List Event} (h : Completes calls) :
    .open_read none ∈ calls ∧ ¬ Releases calls ∧ (tally calls).left = 1 ∨
      .open_read none ∉ calls ∧ Releases calls ∧ (tally calls).left = 0 := by
  have hlive := live_of_completes h
  by_cases hread : .open_read none ∈ calls
  · left
    rw [decide_eq_true hread] at hlive
    have hcases : tally calls = ⟨1, 1, 1, 0⟩ ∨ tally calls = ⟨1, 0, 1, 1⟩ := hlive
    refine ⟨hread, ?_⟩
    rcases hcases with ht | ht <;> simp [Releases, Tally.left, ht]
  · right
    rw [decide_eq_false hread] at hlive
    have hcases : tally calls = ⟨1, 1, 0, 0⟩ ∨ tally calls = ⟨1, 1, 1, 1⟩ := hlive
    refine ⟨hread, ?_⟩
    rcases hcases with ht | ht <;> simp [Releases, Tally.left, ht]

theorem releases_iff {calls : List Event} (h : Completes calls) :
    Releases calls ↔ .open_read none ∉ calls := by
  rcases released_or_left h with ⟨hread, hrel, -⟩ | ⟨hread, hrel, -⟩
  · exact iff_of_false hrel (not_not.mpr hread)
  · exact iff_of_true hrel hread

theorem leftBehind_eq {requests : List (List Event)} (h : ∀ calls ∈ requests, Completes calls) :
    leftBehind requests = requests.countP (.open_read none ∈ ·) := by
  induction requests with
  | nil => rfl
  | cons calls requests ih =>
      have hrest := ih fun calls hcalls => h calls (List.mem_cons_of_mem _ hcalls)
      rw [leftBehind] at hrest ⊢
      rw [List.map_cons, List.sum_cons, hrest, List.countP_cons, Nat.add_comm]
      rcases released_or_left (h calls List.mem_cons_self) with ⟨hread, -, hleft⟩ | ⟨hread, -, hleft⟩
      · simp [hleft, hread]
      · simp [hleft, hread]

/-- A sequence of requests gives back everything exactly when no `GET` among them opens its
file. -/
theorem requests_release_iff (requests : List (List Event))
    (h : ∀ calls ∈ requests, Completes calls) :
    (∀ calls ∈ requests, Releases calls) ∧ leftBehind requests = 0 ↔
      ∀ calls ∈ requests, .open_read none ∉ calls := by
  rw [leftBehind_eq h, List.countP_eq_zero]
  simp only [decide_eq_true_eq]
  constructor
  · exact fun hall => hall.2
  · intro hnone
    exact ⟨fun calls hcalls => (releases_iff (h calls hcalls)).mpr (hnone calls hcalls), hnone⟩

/-- The calls of a `GET` of `a`, up to its `open`. -/
def getUntilOpen : List Event :=
  [.conn_new, .conn_parse none, .conn_get_request .GET ['a'], .pthread_mutex_lock,
    .hashLockLookup none, .attach 0 0, .pthread_mutex_unlock, .reader_arrives 0, .reader_lock 0]

/-- The calls of a `GET` of `a`, which does not exist. -/
def missingGet : List Event :=
  getUntilOpen ++ [.open_read (some .ENOENT), .fprintf .GET ['a'] 404 none,
    .conn_send_response .NOT_FOUND, .reader_unlock 0, .conn_delete]

/-- The calls of a `GET` that sends `a`. -/
def sentGet : List Event :=
  getUntilOpen ++ [.open_read none, .fstat false, .conn_send_file none,
    .fprintf .GET ['a'] 200 none, .reader_unlock 0, .close]

/-- The calls of a `GET` of the directory `a`. -/
def directoryGet : List Event :=
  getUntilOpen ++ [.open_read none, .fstat true, .fprintf .GET ['a'] 403 none,
    .conn_send_response .FORBIDDEN, .reader_unlock 0, .conn_delete]

theorem requests_release_iff_missing :
    (∀ calls ∈ [missingGet, missingGet], Releases calls) ∧
        leftBehind [missingGet, missingGet] = 0 ↔
      ∀ calls ∈ [missingGet, missingGet], .open_read none ∉ calls :=
  requests_release_iff [missingGet, missingGet] (by decide)

/-- The object of a file that was sent, and the descriptor of a directory. -/
theorem gets_leave_behind : ¬ ∀ requests : List (List Event),
    (∀ calls ∈ requests, Completes calls) →
      (∀ calls ∈ requests, Releases calls) ∧ leftBehind requests = 0 := by
  intro h
  have hleft : leftBehind [sentGet, directoryGet] = 2 := by decide
  have hzero := (h [sentGet, directoryGet] (by decide)).2
  omega

end FavoriteAssignments.HttpServer
