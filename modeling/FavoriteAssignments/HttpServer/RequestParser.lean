import Mathlib.Data.BitVec

/-! # Handling one connection

`request_parser` as the sequence of calls it makes. A program point carries the
locals that are still read; an event is one call with its outcome, and the
outcomes of the calls that leave the server are free. -/

namespace FavoriteAssignments.HttpServer

abbrev Uri := List Char

inductive Request where
  | GET | PUT | UNSUPPORTED
  deriving DecidableEq, Repr

inductive Response where
  | OK | CREATED | BAD_REQUEST | FORBIDDEN | NOT_FOUND | INTERNAL_SERVER_ERROR
  | NOT_IMPLEMENTED | VERSION_NOT_SUPPORTED
  deriving DecidableEq, Repr

def response_get_code : Response → ℕ
  | .OK => 200
  | .CREATED => 201
  | .BAD_REQUEST => 400
  | .FORBIDDEN => 403
  | .NOT_FOUND => 404
  | .INTERNAL_SERVER_ERROR => 500
  | .NOT_IMPLEMENTED => 501
  | .VERSION_NOT_SUPPORTED => 505

inductive Errno where
  | ENOENT | EACCES | EISDIR
  | other (value : ℤ)
  deriving DecidableEq, Repr

/-- The regular expression `^[a-zA-Z0-9 .:-]+$`. -/
def AlphaNumeric (str : Uri) : Bool :=
  !str.isEmpty && str.all fun c => c.isAlphanum || c == ' ' || c == '.' || c == ':' || c == '-'

/-- The response to a failed `open(URI, O_RDONLY)`. -/
def getOpenResponse : Errno → Response
  | .ENOENT => .NOT_FOUND
  | .EACCES | .EISDIR => .FORBIDDEN
  | .other _ => .INTERNAL_SERVER_ERROR

/-- The response to a failed `open(URI, O_CREAT | O_TRUNC | O_WRONLY, 0600)`. -/
def putOpenResponse : Errno → Response
  | .EACCES | .EISDIR | .ENOENT => .FORBIDDEN
  | .other _ => .INTERNAL_SERVER_ERROR

/-- `existed ? &RESPONSE_OK : &RESPONSE_CREATED`. -/
def putResponse (existed : Bool) : Response := if existed then .OK else .CREATED

/-! ## Calls -/

/-- A call and its outcome. Locks are addresses; a call of `reader_lock` or
`writer_lock` is its arrival and its return. `header` is the `Request-Id` field,
printed as `0` where there is none. -/
inductive Event where
  | conn_new
  | conn_parse (response : Option Response)
  | conn_get_request (request : Request) (uri : Uri)
  | access (existed : Bool)
  | pthread_mutex_lock
  | hashLockLookup (lock : Option ℕ)
  | attach (lock : ℕ) (garbage : BitVec 32)
  | pthread_mutex_unlock
  | reader_arrives (lock : ℕ)
  | reader_lock (lock : ℕ)
  | reader_unlock (lock : ℕ)
  | writer_arrives (lock : ℕ)
  | writer_lock (lock : ℕ)
  | writer_unlock (lock : ℕ)
  | open_read (error : Option Errno)
  | fstat (isDir : Bool)
  | conn_send_file (response : Option Response)
  | open_write (error : Option Errno)
  | conn_recv_file (response : Option Response)
  | fprintf (request : Request) (uri : Uri) (code : ℕ) (header : Option String)
  | conn_send_response (response : Response)
  | close
  | conn_delete
  deriving DecidableEq, Repr

/-- The handler a request is in; a PUT carries its local `existed`. -/
inductive Handler where
  | get
  | put (existed : Bool)
  deriving DecidableEq, Repr

/-- The next call of `request_parser`, with the locals it still needs. -/
inductive Pc where
  | start
  | parse
  | parse_failed (response : Response)
  | dispatch
  | not_implemented
  | put_access (uri : Uri)
  -- the lookup, the same code in both handlers
  | mutex_lock (h : Handler) (uri : Uri)
  | lookup (h : Handler) (uri : Uri)
  | create (h : Handler) (uri : Uri)
  | mutex_unlock (h : Handler) (uri : Uri) (lock : ℕ)
  | arrive (h : Handler) (uri : Uri) (lock : ℕ)
  | wait (h : Handler) (uri : Uri) (lock : ℕ)
  -- GET
  | get_open (uri : Uri) (lock : ℕ)
  | get_fstat (uri : Uri) (lock : ℕ)
  | get_send (uri : Uri) (lock : ℕ)
  | get_sent (uri : Uri) (lock : ℕ)
  | get_unlock (lock : ℕ)
  | get_close
  | get_error (uri : Uri) (lock : ℕ) (response : Response)
  | out_send (lock : ℕ) (response : Response)
  | out_unlock (lock : ℕ)
  -- PUT
  | put_open (existed : Bool) (uri : Uri) (lock : ℕ)
  | put_error (uri : Uri) (response : Response)
  | put_recv (existed : Bool) (uri : Uri) (lock : ℕ)
  | put_received (existed : Bool) (uri : Uri) (lock : ℕ)
  | put_unlock (lock : ℕ) (response : Response)
  | put_close (response : Response)
  | finish (response : Response)
  | delete
  | returned
  deriving DecidableEq, Repr

/-! ## Control flow -/

/-- One call of `request_parser`. -/
def next : Pc → Event → Option Pc
  | .start, .conn_new => some .parse
  | .parse, .conn_parse (some response) => some (.parse_failed response)
  | .parse, .conn_parse none => some .dispatch
  | .parse_failed response, .conn_send_response r => if r = response then some .delete else none
  | .dispatch, .conn_get_request .GET uri => some (.mutex_lock .get uri)
  | .dispatch, .conn_get_request .PUT uri => some (.put_access uri)
  | .dispatch, .conn_get_request .UNSUPPORTED _ => some .not_implemented
  | .not_implemented, .conn_send_response r =>
      if r = .NOT_IMPLEMENTED then some .delete else none
  | .put_access uri, .access existed => some (.mutex_lock (.put existed) uri)
  | .mutex_lock h uri, .pthread_mutex_lock => some (.lookup h uri)
  | .lookup h uri, .hashLockLookup (some lock) => some (.mutex_unlock h uri lock)
  | .lookup h uri, .hashLockLookup none => some (.create h uri)
  | .create h uri, .attach lock _ => some (.mutex_unlock h uri lock)
  | .mutex_unlock h uri lock, .pthread_mutex_unlock => some (.arrive h uri lock)
  | .arrive .get uri lock, .reader_arrives l =>
      if l = lock then some (.wait .get uri lock) else none
  | .wait .get uri lock, .reader_lock l =>
      if l = lock then
        some (if AlphaNumeric uri then .get_open uri lock else .get_error uri lock .BAD_REQUEST)
      else none
  | .arrive (.put existed) uri lock, .writer_arrives l =>
      if l = lock then some (.wait (.put existed) uri lock) else none
  | .wait (.put existed) uri lock, .writer_lock l =>
      if l = lock then some (.put_open existed uri lock) else none
  -- GET
  | .get_open uri lock, .open_read none => some (.get_fstat uri lock)
  | .get_open uri lock, .open_read (some errno) =>
      some (.get_error uri lock (getOpenResponse errno))
  | .get_error uri lock response, .fprintf .GET u code _ =>
      if u = uri ∧ code = response_get_code response then some (.out_send lock response) else none
  | .get_fstat uri lock, .fstat true => some (.get_error uri lock .FORBIDDEN)
  | .get_fstat uri lock, .fstat false => some (.get_send uri lock)
  | .get_send uri lock, .conn_send_file none => some (.get_sent uri lock)
  | .get_send _ lock, .conn_send_file (some _) => some (.get_unlock lock)
  | .get_sent uri lock, .fprintf .GET u code _ =>
      if u = uri ∧ code = 200 then some (.get_unlock lock) else none
  | .get_unlock lock, .reader_unlock l => if l = lock then some .get_close else none
  | .get_close, .close => some .returned
  | .out_send lock response, .conn_send_response r =>
      if r = response then some (.out_unlock lock) else none
  | .out_unlock lock, .reader_unlock l => if l = lock then some .delete else none
  -- PUT
  | .put_open existed uri lock, .open_write none => some (.put_recv existed uri lock)
  | .put_open _ uri _, .open_write (some errno) => some (.put_error uri (putOpenResponse errno))
  | .put_error uri response, .fprintf .PUT u code _ =>
      if u = uri ∧ code = 403 then some (.finish response) else none
  | .put_recv existed uri lock, .conn_recv_file none => some (.put_received existed uri lock)
  | .put_recv _ _ lock, .conn_recv_file (some response) => some (.put_unlock lock response)
  | .put_received existed uri lock, .fprintf .PUT u code _ =>
      if u = uri ∧ code = response_get_code (putResponse existed) then
        some (.put_unlock lock (putResponse existed))
      else none
  | .put_unlock lock response, .writer_unlock l =>
      if l = lock then some (.put_close response) else none
  | .put_close response, .close => some (.finish response)
  | .finish response, .conn_send_response r => if r = response then some .delete else none
  | .delete, .conn_delete => some .returned
  | _, _ => none

/-- The calls that `next` allows, with the point each leads to. -/
inductive Next : Pc → Event → Pc → Prop where
  | conn_new : Next .start .conn_new .parse
  | conn_parse_error {response} : Next .parse (.conn_parse (some response)) (.parse_failed response)
  | conn_parse : Next .parse (.conn_parse none) .dispatch
  | send_parse_error {response} :
      Next (.parse_failed response) (.conn_send_response response) .delete
  | get {uri} : Next .dispatch (.conn_get_request .GET uri) (.mutex_lock .get uri)
  | put {uri} : Next .dispatch (.conn_get_request .PUT uri) (.put_access uri)
  | unsupported {uri} : Next .dispatch (.conn_get_request .UNSUPPORTED uri) .not_implemented
  | send_unsupported : Next .not_implemented (.conn_send_response .NOT_IMPLEMENTED) .delete
  | access {uri existed} : Next (.put_access uri) (.access existed) (.mutex_lock (.put existed) uri)
  | mutex_lock {h uri} : Next (.mutex_lock h uri) .pthread_mutex_lock (.lookup h uri)
  | found {h uri lock} :
      Next (.lookup h uri) (.hashLockLookup (some lock)) (.mutex_unlock h uri lock)
  | missing {h uri} : Next (.lookup h uri) (.hashLockLookup none) (.create h uri)
  | attach {h uri lock garbage} :
      Next (.create h uri) (.attach lock garbage) (.mutex_unlock h uri lock)
  | mutex_unlock {h uri lock} :
      Next (.mutex_unlock h uri lock) .pthread_mutex_unlock (.arrive h uri lock)
  | reader_arrives {uri lock} :
      Next (.arrive .get uri lock) (.reader_arrives lock) (.wait .get uri lock)
  | reader_lock {uri lock} : AlphaNumeric uri = true →
      Next (.wait .get uri lock) (.reader_lock lock) (.get_open uri lock)
  | reader_lock_invalid {uri lock} : AlphaNumeric uri = false →
      Next (.wait .get uri lock) (.reader_lock lock) (.get_error uri lock .BAD_REQUEST)
  | writer_arrives {existed uri lock} :
      Next (.arrive (.put existed) uri lock) (.writer_arrives lock) (.wait (.put existed) uri lock)
  | writer_lock {existed uri lock} :
      Next (.wait (.put existed) uri lock) (.writer_lock lock) (.put_open existed uri lock)
  | open_read {uri lock} : Next (.get_open uri lock) (.open_read none) (.get_fstat uri lock)
  | open_read_error {uri lock errno} :
      Next (.get_open uri lock) (.open_read (some errno))
        (.get_error uri lock (getOpenResponse errno))
  | log_error {uri lock response header} :
      Next (.get_error uri lock response) (.fprintf .GET uri (response_get_code response) header)
        (.out_send lock response)
  | fstat_dir {uri lock} :
      Next (.get_fstat uri lock) (.fstat true) (.get_error uri lock .FORBIDDEN)
  | fstat {uri lock} : Next (.get_fstat uri lock) (.fstat false) (.get_send uri lock)
  | send_file {uri lock} : Next (.get_send uri lock) (.conn_send_file none) (.get_sent uri lock)
  | send_file_error {uri lock response} :
      Next (.get_send uri lock) (.conn_send_file (some response)) (.get_unlock lock)
  | log_sent {uri lock header} :
      Next (.get_sent uri lock) (.fprintf .GET uri 200 header) (.get_unlock lock)
  | get_unlock {lock} : Next (.get_unlock lock) (.reader_unlock lock) .get_close
  | get_close : Next .get_close .close .returned
  | out_send {lock response} :
      Next (.out_send lock response) (.conn_send_response response) (.out_unlock lock)
  | out_unlock {lock} : Next (.out_unlock lock) (.reader_unlock lock) .delete
  | open_write {existed uri lock} :
      Next (.put_open existed uri lock) (.open_write none) (.put_recv existed uri lock)
  | open_write_error {existed uri lock errno} :
      Next (.put_open existed uri lock) (.open_write (some errno))
        (.put_error uri (putOpenResponse errno))
  | log_put_error {uri response header} :
      Next (.put_error uri response) (.fprintf .PUT uri 403 header) (.finish response)
  | recv_file {existed uri lock} :
      Next (.put_recv existed uri lock) (.conn_recv_file none) (.put_received existed uri lock)
  | recv_file_error {existed uri lock response} :
      Next (.put_recv existed uri lock) (.conn_recv_file (some response)) (.put_unlock lock response)
  | log_received {existed uri lock header} :
      Next (.put_received existed uri lock)
        (.fprintf .PUT uri (response_get_code (putResponse existed)) header)
        (.put_unlock lock (putResponse existed))
  | put_unlock {lock response} :
      Next (.put_unlock lock response) (.writer_unlock lock) (.put_close response)
  | put_close {response} : Next (.put_close response) .close (.finish response)
  | finish {response} : Next (.finish response) (.conn_send_response response) .delete
  | delete : Next .delete .conn_delete .returned

theorem next_cases {p p' : Pc} {e : Event} (h : next p e = some p') : Next p e p' := by
  unfold next at h
  -- one case for each line of `next`, then its comparison with the locals
  split at h <;> (try split at h) <;> cases h
  all_goals try obtain ⟨rfl, rfl⟩ := ‹_ ∧ _›
  all_goals subst_vars
  all_goals first
    | constructor
    | split
      · exact .reader_lock ‹_›
      · exact .reader_lock_invalid (Bool.eq_false_of_not_eq_true ‹_›)

/-- The calls made from a program point on, up to another one. -/
def run (p : Pc) (calls : List Event) : Option Pc := calls.foldlM next p

/-- Every call of one connection, from entry to return. -/
def Completes (calls : List Event) : Prop := run .start calls = some .returned

instance (calls : List Event) : Decidable (Completes calls) :=
  inferInstanceAs (Decidable (_ = _))

end FavoriteAssignments.HttpServer
