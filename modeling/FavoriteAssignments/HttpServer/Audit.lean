import FavoriteAssignments.HttpServer.PutStatus

/-! # The audit log

The lines on stderr against what the client receives. A status code is printed as a literal
or computed from the response, and a `PUT` whose `open` fails prints a literal beside a
response that depends on `errno`. -/

namespace FavoriteAssignments.HttpServer

/-- The status codes that the client receives; `conn_send_file` sends its own 200. -/
def received (calls : List Event) : List ℕ :=
  calls.filterMap fun
    | .conn_send_response response => some (response_get_code response)
    | .conn_send_file none => some 200
    | _ => none

theorem received_append (calls rest : List Event) :
    received (calls ++ rest) = received calls ++ received rest :=
  List.filterMap_append

theorem logged_append (calls rest : List Event) :
    logged (calls ++ rest) = logged calls ++ logged rest :=
  List.filterMap_append

/-- At most one line is printed, and it has the status code that the client receives. -/
def AuditAgrees (calls : List Event) : Prop :=
  logged calls = [] ∨ ∃ code, logged calls = [code] ∧ received calls = [code]

/-- A `PUT` whose `open` fails with an `errno` that has no response of its own. -/
def Event.openFailsOtherwise : Event → Bool
  | .open_write (some (.other _)) => true
  | _ => false

/-! ## Along the calls of a connection -/

/-- What has been printed and received on the way to a program point, and the response that
is still to be sent. With `other`, a `PUT` has failed to open its file for another reason. -/
def Told (other : Bool) (log client : List ℕ) : Pc → Prop
  | .get_sent _ _ => other = false ∧ log = [] ∧ client = [200]
  | .get_unlock _ | .get_close =>
      other = false ∧ (log = [] ∨ ∃ code, log = [code] ∧ client = [code])
  | .out_send _ response => other = false ∧ log = [response_get_code response] ∧ client = []
  | .out_unlock _ => other = false ∧ ∃ code, log = [code] ∧ client = [code]
  | .put_error _ response =>
      log = [] ∧ client = [] ∧ response = if other then .INTERNAL_SERVER_ERROR else .FORBIDDEN
  | .put_unlock _ response | .put_close response =>
      other = false ∧ client = [] ∧ (log = [] ∨ log = [response_get_code response])
  | .finish response =>
      client = [] ∧
        if other then log = [403] ∧ response = .INTERNAL_SERVER_ERROR
        else log = [] ∨ log = [response_get_code response]
  | .delete | .returned =>
      if other then log = [403] ∧ client = [500]
      else log = [] ∨ ∃ code, log = [code] ∧ client = [code]
  | _ => other = false ∧ log = [] ∧ client = []

theorem putOpenResponse_eq (errno : Errno) :
    putOpenResponse errno =
      if Event.openFailsOtherwise (.open_write (some errno)) then .INTERNAL_SERVER_ERROR
      else .FORBIDDEN := by
  cases errno <;> rfl

/-- One call prints or sends at most one status code. -/
theorem next_told {p p' : Pc} {e : Event} (h : next p e = some p') {other : Bool}
    {log client : List ℕ} (ht : Told other log client p) :
    Told (other || e.openFailsOtherwise) (log ++ logged [e]) (client ++ received [e]) p' := by
  cases other <;> cases next_cases h
  case false.open_write_error =>
    simpa [Told, logged, received, putOpenResponse_eq] using ht
  all_goals
    simp_all [Told, logged, received, Event.openFailsOtherwise, response_get_code]

/-- A connection that is done has printed and received these. -/
theorem told_of_completes {calls : List Event} (h : Completes calls) :
    Told (calls.any Event.openFailsOtherwise) (logged calls) (received calls) .returned := by
  have hstep : ∀ done p e p', next p e = some p' →
      Told (done.any Event.openFailsOtherwise) (logged done) (received done) p →
      Told ((done ++ [e]).any Event.openFailsOtherwise) (logged (done ++ [e]))
        (received (done ++ [e])) p' := by
    intro done p e p' hnext ht
    rw [List.any_append, logged_append, received_append]
    simpa using next_told hnext ht
  exact run_invariant hstep [] h ⟨rfl, rfl, rfl⟩

/-- The log agrees with the response unless the `open` of a `PUT` fails with another `errno`
than the three that the code names. -/
theorem auditAgrees_iff {calls : List Event} (h : Completes calls) :
    AuditAgrees calls ↔ ∀ e ∈ calls, e.openFailsOtherwise = false := by
  have htold := told_of_completes h
  constructor
  · intro hagrees e he
    cases hother : e.openFailsOtherwise with
    | false => rfl
    | true =>
        rw [List.any_eq_true.mpr ⟨e, he, hother⟩] at htold
        obtain ⟨hlog, hclient⟩ : logged calls = [403] ∧ received calls = [500] := htold
        simp [AuditAgrees, hlog, hclient] at hagrees
  · intro hnone
    have hany : calls.any Event.openFailsOtherwise = false :=
      List.any_eq_false.mpr fun e he => Bool.eq_false_iff.mp (hnone e he)
    rw [hany] at htold
    exact htold

theorem auditAgrees_iff_created :
    AuditAgrees createdPut ↔ ∀ e ∈ createdPut, e.openFailsOtherwise = false :=
  auditAgrees_iff (by decide)

/-- The calls of a `PUT` to `a` whose `open` fails with `ENOSPC`. -/
def fullDiskPut : List Event :=
  putUntilOpen false ++ [.open_write (some (.other 28)), .fprintf .PUT ['a'] 403 none,
    .conn_send_response .INTERNAL_SERVER_ERROR, .conn_delete]

/-- On a full disk the log says 403 and the client receives 500. -/
theorem full_disk_disagrees : ¬ ∀ calls, Completes calls → AuditAgrees calls := by
  intro h
  have hagrees := h fullDiskPut (by decide)
  have hlog : logged fullDiskPut = [403] := by decide
  have hclient : received fullDiskPut = [500] := by decide
  simp [AuditAgrees, hlog, hclient] at hagrees

end FavoriteAssignments.HttpServer
