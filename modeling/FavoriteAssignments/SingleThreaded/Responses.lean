import FavoriteAssignments.SingleThreaded.Connection

/-! # One response for each connection

The calls of an iteration on its connection: the requests that are answered once, and what
the handlers of GET and PUT would do with one. -/

namespace FavoriteAssignments.SingleThreaded

open CStrings

/-! ## The text of a request line -/

/-- The string that is scanned, from the reads that are not interrupted: a line, what came
before the client closed its end if a newline is left over in the buffer, or a full buffer
and what is behind it. -/
inductive RequestText (stale : List Char) : List Read → List Char → Prop where
  | newline {line} (rest) : '\n' ∉ line → line.length < BUFFER_SIZE - 1 →
      RequestText stale (line.map .byte ++ .byte '\n' :: rest) (cString line)
  | closed {line} : '\n' ∉ line → line.length < BUFFER_SIZE - 1 →
      stale[line.length]? = some '\n' → RequestText stale (line.map .byte) (cString line)
  | full {line} (rest) : '\n' ∉ line → line.length = BUFFER_SIZE - 1 →
      RequestText stale (line.map .byte ++ rest) (cString (line ++ stale.drop line.length))

def delivered (reads : List Read) : List Read := reads.filter (· != .interrupted)

theorem requestLoop_delivered (client_socket : ℕ) (stale line : List Char) (reads : List Read) :
    (requestLoop client_socket stale line (delivered reads)).2.1 =
      (requestLoop client_socket stale line reads).2.1 := by
  induction reads generalizing line with
  | nil => rfl
  | cons read reads ih =>
      cases read with
      | interrupted => exact ih line
      | failed => rfl
      | byte c =>
          have hkeep : delivered (.byte c :: reads) = .byte c :: delivered reads := rfl
          simp only [hkeep, requestLoop]
          split_ifs with hnewline hroom
          · rfl
          · exact ih (line ++ [c])
          · rfl

/-- The loop takes characters other than a newline as long as they leave room. -/
theorem requestLoop_bytes (client_socket : ℕ) (stale line : List Char) {word : List Char}
    (reads : List Read) (hword : '\n' ∉ word) (hroom : (line ++ word).length < BUFFER_SIZE - 1) :
    (requestLoop client_socket stale line (word.map .byte ++ reads)).2.1 =
      (requestLoop client_socket stale (line ++ word) reads).2.1 := by
  induction word generalizing line with
  | nil => simp
  | cons c word ih =>
      simp only [List.mem_cons, not_or] at hword
      have hmore : (line ++ [c] ++ word).length < BUFFER_SIZE - 1 := by simpa using hroom
      have hnext : (line ++ [c]).length < BUFFER_SIZE - 1 := by
        rw [List.length_append] at hmore
        exact Nat.lt_of_le_of_lt (Nat.le_add_right _ _) hmore
      simp only [List.map_cons, List.cons_append, requestLoop, if_neg (Ne.symm hword.1), if_pos hnext]
      rw [ih (line ++ [c]) hword.2 hmore, List.append_assoc, List.singleton_append]

theorem RequestText.execution {stale text : List Char} {reads : List Read}
    (h : RequestText stale reads text) (client_socket : ℕ) :
    (requestLoop client_socket stale [] reads).2.1 = some text := by
  cases h with
  | newline rest hline hroom =>
      rw [requestLoop_bytes client_socket stale [] _ hline hroom]
      simp [requestLoop]
  | @closed line hline hroom hstale =>
      rw [← List.append_nil (line.map Read.byte),
        requestLoop_bytes client_socket stale [] [] hline hroom]
      simp [requestLoop, hstale]
  | @full line rest hline hlen =>
      obtain ⟨line, c, rfl⟩ : ∃ front c, line = front ++ [c] := by
        refine ⟨line.dropLast, line.getLast ?_, (List.dropLast_append_getLast _).symm⟩
        rintro rfl
        simp [BUFFER_SIZE] at hlen
      simp only [List.mem_append, List.mem_singleton, not_or] at hline
      have hroom : line.length < BUFFER_SIZE - 1 := by
        rw [← hlen, List.length_append]
        exact Nat.lt_succ_self _
      rw [List.map_append, List.append_assoc,
        requestLoop_bytes client_socket stale [] _ hline.1 hroom]
      simp only [List.nil_append, List.map_cons, List.map_nil, List.cons_append, requestLoop,
        if_neg (Ne.symm hline.2), hlen, lt_irrefl, if_false]

theorem requestText_of_loop (client_socket : ℕ) {stale line text : List Char} {reads : List Read}
    (hline : '\n' ∉ line) (hroom : line.length < BUFFER_SIZE - 1)
    (h : (requestLoop client_socket stale line reads).2.1 = some text) :
    RequestText stale (line.map .byte ++ delivered reads) text := by
  induction reads generalizing line with
  | nil =>
      simp only [requestLoop] at h
      split_ifs at h with hstale
      obtain rfl : cString line = text := by simpa using h
      simpa [delivered] using RequestText.closed hline hroom hstale
  | cons read reads ih =>
      cases read with
      | interrupted => exact ih hline hroom h
      | failed => simp [requestLoop] at h
      | byte c =>
          have hkeep : line.map .byte ++ delivered (.byte c :: reads) =
              line.map .byte ++ .byte c :: delivered reads := rfl
          rw [hkeep]
          simp only [requestLoop] at h
          split_ifs at h with hnewline hmore
          · obtain rfl : cString line = text := by simpa using h
            rw [hnewline]
            exact .newline _ hline hroom
          · have hlonger : '\n' ∉ line ++ [c] := by simp [hline, Ne.symm hnewline]
            simpa using ih hlonger hmore h
          · have hlonger : '\n' ∉ line ++ [c] := by simp [hline, Ne.symm hnewline]
            have hlen : (line ++ [c]).length = BUFFER_SIZE - 1 := by
              rw [List.length_append, List.length_singleton] at hmore ⊢
              omega
            obtain rfl : cString (line ++ [c] ++ stale.drop (line ++ [c]).length) = text := by
              simpa using h
            have hfull : RequestText stale ((line ++ [c]).map .byte ++ delivered reads)
                (cString (line ++ [c] ++ stale.drop (line ++ [c]).length)) :=
              .full (delivered reads) hlonger hlen
            simpa using hfull

theorem requestText_iff (client_socket : ℕ) {stale text : List Char} {reads : List Read} :
    RequestText stale (delivered reads) text ↔
      (requestLoop client_socket stale [] reads).2.1 = some text := by
  constructor
  · intro h
    rw [← requestLoop_delivered]
    exact h.execution client_socket
  · intro h
    exact requestText_of_loop client_socket List.not_mem_nil (by decide) h

/-! ## Connections -/

/-- The descriptor is read, written or closed. -/
def Event.touches (fd : ℕ) : Event → Bool
  | .read fd' | .write fd' _ | .close fd' => fd' == fd
  | .pass src dst _ => src == fd || dst == fd
  | .undefined => false

def Event.writes (fd : ℕ) : Event → Bool
  | .write fd' _ => fd' == fd
  | _ => false

/-- The bytes that the calls send to a descriptor. -/
def sent (fd : ℕ) (events : List Event) : List Char :=
  events.flatMap fun
    | .write fd' message => if fd' = fd then message else []
    | .pass _ dst data => if dst = fd then data else []
    | _ => []

/-- The connection gets one response, is closed once and left alone afterwards, and a
response 200 to a GET is a header with the size of the file and the bytes of the file. -/
structure Answered (files : Files) (get : Prop) (client_socket : ℕ) (events : List Event) : Prop where
  response : events.countP (Event.writes client_socket) = 1
  close : events.count (.close client_socket) = 1
  silent : ∀ event ∈ (events.dropWhile (· != .close client_socket)).tail,
    event.touches client_socket = false
  defined : .undefined ∉ events
  file : get → "HTTP/1.1 200".toList <+: sent client_socket events →
    ∃ st_size digits, files.fstat = some (false, st_size) ∧ numeralValue digits = st_size ∧
      sent client_socket events =
        "HTTP/1.1 200 OK\r\nContent-Length: ".toList ++ digits ++ "\r\n\r\n".toList ++ files.contents

/-- The first word of the request line is `GET`. -/
def IsGet (stale : List Char) (reads : List Read) : Prop :=
  ∃ text, RequestText stale (delivered reads) text ∧ (words 3 text).head? = some ['G', 'E', 'T']

/-- A call that neither sends to a descriptor nor closes it. -/
def Event.quiet (fd : ℕ) : Event → Bool
  | .read _ => true
  | .write fd' _ | .close fd' => fd' != fd
  | .pass _ dst _ => dst != fd
  | .undefined => false

def Quiet (fd : ℕ) (events : List Event) : Prop := ∀ event ∈ events, event.quiet fd = true

theorem quiet_nil (fd : ℕ) : Quiet fd [] := List.forall_mem_nil _

theorem Quiet.append {fd : ℕ} {front back : List Event} (hfront : Quiet fd front)
    (hback : Quiet fd back) : Quiet fd (front ++ back) :=
  List.forall_mem_append.mpr ⟨hfront, hback⟩

theorem Quiet.countP_writes {fd : ℕ} {events : List Event} (h : Quiet fd events) :
    events.countP (Event.writes fd) = 0 := by
  rw [List.countP_eq_zero]
  intro event hevent
  have hquiet := h event hevent
  cases event <;> simp_all [Event.quiet, Event.writes]

theorem Quiet.ne_close {fd : ℕ} {events : List Event} (h : Quiet fd events) :
    ∀ event ∈ events, event ≠ .close fd := by
  intro event hevent hclose
  have hquiet := h event hevent
  simp [hclose, Event.quiet] at hquiet

theorem Quiet.count_close {fd : ℕ} {events : List Event} (h : Quiet fd events) :
    events.count (.close fd) = 0 :=
  List.count_eq_zero.mpr fun hevent => h.ne_close _ hevent rfl

theorem Quiet.defined {fd : ℕ} {events : List Event} (h : Quiet fd events) :
    .undefined ∉ events := fun hevent => absurd (h _ hevent) (by simp [Event.quiet])

theorem Quiet.sent {fd : ℕ} {events : List Event} (h : Quiet fd events) : sent fd events = [] := by
  rw [SingleThreaded.sent, List.flatMap_eq_nil_iff]
  intro event hevent
  have hquiet := h event hevent
  cases event <;> simp_all [Event.quiet]

theorem Quiet.dropWhile {fd : ℕ} {events : List Event} (h : Quiet fd events) (rest : List Event) :
    (events ++ rest).dropWhile (· != .close fd) = rest.dropWhile (· != .close fd) :=
  List.dropWhile_append_of_pos fun event hevent => by simpa using h.ne_close event hevent

theorem Quiet.not_answered {files : Files} {get : Prop} {client_socket : ℕ} {events : List Event}
    (h : Quiet client_socket events) : ¬Answered files get client_socket events := by
  intro hanswered
  have hresponse := hanswered.response
  rw [h.countP_writes] at hresponse
  exact absurd hresponse Nat.zero_ne_one

/-- No message but the one of 200 starts with that status. -/
theorem message_not_ok {status_code : ℕ} (h : status_code ≠ 200) :
    ¬"HTTP/1.1 200".toList <+: (message status_code).toList := by
  unfold message
  split
  all_goals first | exact absurd rfl h | decide

/-- `send_response` answers a connection, between calls that leave it alone. -/
theorem answered_send_response (files : Files) (get : Prop) {client_socket : ℕ} (status_code : ℕ)
    {front back : List Event} (hfront : Quiet client_socket front) (hback : Quiet client_socket back)
    (hsilent : ∀ event ∈ back, event.touches client_socket = false)
    (hstatus : get → status_code ≠ 200) :
    Answered files get client_socket (front ++ (send_response client_socket status_code ++ back)) where
  response := by simp [hfront.countP_writes, hback.countP_writes, send_response, Event.writes]
  close := by simp [hfront.count_close, hback.count_close, send_response]
  silent := by simpa [hfront.dropWhile, send_response] using hsilent
  defined := by simp [hfront.defined, hback.defined, send_response]
  file := by
    intro hget hok
    have hsent : sent client_socket (front ++ (send_response client_socket status_code ++ back)) =
        (message status_code).toList := by
      have hbefore := hfront.sent
      have hbehind := hback.sent
      simp only [sent] at hbefore hbehind
      simp [sent, send_response, hbefore, hbehind]
    exact absurd (hsent ▸ hok) (message_not_ok (hstatus hget))

/-! ## Iterations -/

theorem requestLoop_quiet (fd client_socket : ℕ) (stale line : List Char) (reads : List Read) :
    Quiet fd (requestLoop client_socket stale line reads).1 := by
  induction reads generalizing line with
  | nil => simp [Quiet, Event.quiet, requestLoop]
  | cons read reads ih =>
      cases read with
      | interrupted => simpa [Quiet, Event.quiet, requestLoop] using ih line
      | failed => simp [Quiet, Event.quiet, requestLoop]
      | byte c =>
          simp only [requestLoop]
          split_ifs
          · simp [Quiet, Event.quiet]
          · simpa [Quiet, Event.quiet] using ih (line ++ [c])
          · simp [Quiet, Event.quiet]

/-- A method that passes the check has a blank behind it, so it is neither of the two
strings that `main` compares it with: the handlers are not reached. -/
theorem is_valid_method_ne {method : List Char} (h : is_valid_method method = true) :
    method ≠ ['G', 'E', 'T'] ∧ method ≠ ['P', 'U', 'T'] := by
  constructor
  · rintro rfl
    exact absurd h (by decide)
  · rintro rfl
    exact absurd h (by decide)

/-- What `main` does with a request. -/
inductive Handed where
  | get (filename : List Char)
  | put (filename : List Char)
  | answered (status_code : ℕ)
  deriving DecidableEq, Repr

/-- The branches of `main` behind `read_request_line`. -/
def handed (spill : List (List Char) → Locals → Locals) (stale : List Char) (reads : List Read)
    (locals : Locals) : Handed :=
  let (_, read, locals, _) := read_request_line spill stale reads locals
  if !read || !is_valid_method locals.method || !is_valid_version locals.version ||
      !is_valid_filename locals.filename then
    .answered 400
  else if locals.method = ['G', 'E', 'T'] then .get locals.filename
  else if locals.method = ['P', 'U', 'T'] then .put locals.filename
  else .answered 501

/-- An iteration reads the request line and does that. -/
theorem iteration_handed (spill : List (List Char) → Locals → Locals) (files : Files)
    (stale : List Char) (reads : List Read) (locals : Locals) :
    iteration spill files stale reads locals =
      let (events, _, scanned, rest) := read_request_line spill stale reads locals
      events ++ match handed spill stale reads locals with
        | .get filename => process_get_request files scanned.client_socket filename
        | .put filename => process_put_request files scanned.client_socket filename rest
        | .answered status_code => send_response scanned.client_socket status_code := by
  unfold iteration handed
  dsimp only
  split_ifs <;> rfl

/-- No request reaches a handler. -/
theorem handed_answered (spill : List (List Char) → Locals → Locals) (stale : List Char)
    (reads : List Read) (locals : Locals) :
    handed spill stale reads locals = .answered 400 ∨
      handed spill stale reads locals = .answered 501 := by
  unfold handed
  dsimp only
  split_ifs with hinvalid hget hput
  · exact Or.inl rfl
  · simp only [Bool.or_eq_true, Bool.not_eq_true', not_or, Bool.not_eq_false] at hinvalid
    exact absurd hget (is_valid_method_ne hinvalid.1.1.2).1
  · simp only [Bool.or_eq_true, Bool.not_eq_true', not_or, Bool.not_eq_false] at hinvalid
    exact absurd hput (is_valid_method_ne hinvalid.1.1.2).2
  · exact Or.inr rfl

/-- Every request is answered with 400 or 501, on the socket that is in the frame after the
request line is scanned. -/
theorem iteration_eq (spill : List (List Char) → Locals → Locals) (files : Files)
    (stale : List Char) (reads : List Read) (locals : Locals) :
    ∃ status_code, (status_code = 400 ∨ status_code = 501) ∧
      iteration spill files stale reads locals =
        (read_request_line spill stale reads locals).1 ++
          send_response (read_request_line spill stale reads locals).2.2.1.client_socket status_code := by
  rw [iteration_handed]
  rcases handed_answered spill stale reads locals with hanswered | hanswered
  · exact ⟨400, Or.inl rfl, by simp only [hanswered]⟩
  · exact ⟨501, Or.inr rfl, by simp only [hanswered]⟩

theorem read_request_line_quiet (fd : ℕ) (spill : List (List Char) → Locals → Locals)
    (stale : List Char) (reads : List Read) (locals : Locals) :
    Quiet fd (read_request_line spill stale reads locals).1 := by
  have hquiet := requestLoop_quiet fd locals.client_socket stale [] reads
  unfold read_request_line
  rcases hloop : requestLoop locals.client_socket stale [] reads with ⟨events, buffer, rest⟩
  rw [hloop] at hquiet
  cases buffer with
  | none => exact hquiet
  | some buffer => exact hquiet

theorem Locals.assign_client_socket (locals : Locals) (ws : List (List Char)) :
    (locals.assign ws).client_socket = locals.client_socket := by
  unfold Locals.assign
  split <;> rfl

theorem read_request_line_client_socket (spill : List (List Char) → Locals → Locals)
    {stale : List Char} {reads : List Read} (locals : Locals)
    (h : ∀ text, RequestText stale (delivered reads) text → fits (words 3 text) = true) :
    (read_request_line spill stale reads locals).2.2.1.client_socket = locals.client_socket := by
  simp only [requestText_iff locals.client_socket] at h
  unfold read_request_line
  rcases hloop : requestLoop locals.client_socket stale [] reads with ⟨events, buffer, rest⟩
  rw [hloop] at h
  cases buffer with
  | none => rfl
  | some buffer => simp only [scan, h buffer rfl, if_true, Locals.assign_client_socket]

theorem read_request_line_spills (spill : List (List Char) → Locals → Locals)
    {stale text : List Char} {reads : List Read} (locals : Locals)
    (htext : RequestText stale (delivered reads) text) (hfits : ¬fits (words 3 text) = true) :
    (read_request_line spill stale reads locals).2.2.1 = spill (words 3 text) locals := by
  rw [requestText_iff locals.client_socket] at htext
  unfold read_request_line
  rcases hloop : requestLoop locals.client_socket stale [] reads with ⟨events, buffer, rest⟩
  rw [hloop] at htext
  obtain rfl : buffer = some text := htext
  simp only [scan, hfits, Bool.false_eq_true, if_false]

/-- A response on another descriptor is none on this one. -/
theorem send_response_quiet {fd other : ℕ} (hother : other ≠ fd) (status_code : ℕ) :
    Quiet fd (send_response other status_code) := by
  simp [Quiet, Event.quiet, send_response, hother]

/-- A connection is answered as it should be, whatever a word that is too long overwrites,
exactly if the words of its request line fit. -/
theorem one_response_iff (files : Files) (stale : List Char) (reads : List Read) (locals : Locals) :
    (∀ spill, Answered files (IsGet stale reads) locals.client_socket
      (iteration spill files stale reads locals)) ↔
      ∀ text, RequestText stale (delivered reads) text → fits (words 3 text) = true := by
  constructor
  · intro hanswered text htext
    by_contra hfits
    let spill (_ : List (List Char)) (locals : Locals) : Locals :=
      { locals with client_socket := locals.client_socket + 1 }
    obtain ⟨status_code, -, heq⟩ := iteration_eq spill files stale reads locals
    have hbad := hanswered spill
    rw [heq, read_request_line_spills spill locals htext hfits] at hbad
    have helsewhere : (spill (words 3 text) locals).client_socket ≠ locals.client_socket :=
      Nat.succ_ne_self locals.client_socket
    exact ((read_request_line_quiet _ spill stale reads locals).append
      (send_response_quiet helsewhere status_code)).not_answered hbad
  · intro hfits spill
    obtain ⟨status_code, hstatus, heq⟩ := iteration_eq spill files stale reads locals
    rw [heq, read_request_line_client_socket spill locals hfits]
    rw [← List.append_nil (send_response _ _)]
    exact answered_send_response files _ status_code
      (read_request_line_quiet _ spill stale reads locals) (quiet_nil _) (List.forall_mem_nil _)
      fun _ => by omega

/-- The frame of `main` with `client_socket` in the four bytes behind `method`. -/
def socketBehindMethod (ws : List (List Char)) (locals : Locals) : Locals :=
  let beyond := ((ws.headD [] ++ ['\x00']).drop 10).take 4
  { locals.assign ws with
    client_socket := beyond.foldr (fun c n => c.toNat + 256 * n)
      (locals.client_socket / 256 ^ beyond.length) }

/-- No file can be opened. -/
def Files.empty : Files :=
  { openRead := fun _ => none, fstat := none, contents := [], access := fun _ => false,
    openWrite := fun _ => none }

/-- The NUL behind a method of ten characters makes 4 a 0: the response goes to the standard
input, and the connection is neither answered nor closed. -/
theorem long_method_unanswered :
    ¬Answered Files.empty (IsGet [] ("AAAAAAAAAA / HTTP/1.1\r\n".toList.map .byte)) 4
      (iteration socketBehindMethod Files.empty []
        ("AAAAAAAAAA / HTTP/1.1\r\n".toList.map .byte)
        { client_socket := 4, method := [], filename := [], version := [] }) := by
  intro h
  exact absurd h.response (by decide +kernel)

/-! ## The handlers -/

/-- A GET that reaches its handler is answered, unless the file can be sent: its bytes are
passed on after the connection is closed. -/
theorem process_get_request_answered_iff (files : Files) (get : Prop) {client_socket : ℕ}
    {filename : List Char}
    (hfd : ∀ file_descriptor, files.openRead filename = some file_descriptor →
      file_descriptor ≠ client_socket) :
    Answered files get client_socket (process_get_request files client_socket filename) ↔
      ∀ st_size, (files.openRead filename).isSome → files.fstat ≠ some (false, st_size) := by
  unfold process_get_request
  cases hopen : files.openRead filename with
  | none =>
      have hanswered := answered_send_response files get 404 (quiet_nil client_socket)
        (quiet_nil client_socket) (List.forall_mem_nil _) fun _ => by decide
      simpa using hanswered
  | some file_descriptor =>
      have hquiet : Quiet client_socket [.close file_descriptor] := by
        simpa [Quiet, Event.quiet] using hfd file_descriptor hopen
      have hsilent : ∀ event ∈ [Event.close file_descriptor], event.touches client_socket = false := by
        simpa [Event.touches] using hfd file_descriptor hopen
      cases hstat : files.fstat with
      | none =>
          have hanswered := answered_send_response files get 500 (quiet_nil client_socket)
            hquiet hsilent fun _ => by decide
          simpa using hanswered
      | some stat =>
          rcases stat with ⟨directory, st_size⟩
          cases directory with
          | true =>
              have hanswered := answered_send_response files get 403 (quiet_nil client_socket)
                hquiet hsilent fun _ => by decide
              simpa using hanswered
          | false =>
              refine iff_of_false ?_ fun h => h st_size rfl rfl
              intro h
              have hpass := h.silent
              simp [send_response, Event.touches] at hpass

theorem headerLoop_quiet (fd client_socket : ℕ) (headerField : List Char) (reads : List Read) :
    Quiet fd (headerLoop client_socket headerField reads).1 := by
  fun_induction headerLoop client_socket headerField reads with
  | case1 headerField c reads hroom => simp [Quiet, Event.quiet]
  | case2 headerField c reads hroom _ hend => simp [Quiet, Event.quiet]
  | case3 headerField c reads hroom _ hend events header hloop ih =>
      rw [hloop] at ih
      simpa [Quiet, Event.quiet] using ih
  | case4 headerField reads hother => simp [Quiet, Event.quiet]

/-- `get_content_length` only reads, or answers the connection itself, or leaves its array. -/
theorem get_content_length_cases (client_socket : ℕ) (reads : List Read) :
    (Quiet client_socket (get_content_length client_socket reads).1 ∧
        (get_content_length client_socket reads).2.1.isSome) ∨
      (∃ events, Quiet client_socket events ∧
        (get_content_length client_socket reads).1 = events ++ send_response client_socket 400 ∧
        (get_content_length client_socket reads).2.1 = some (-1)) ∨
      (.undefined ∈ (get_content_length client_socket reads).1 ∧
        (get_content_length client_socket reads).2.1 = none) := by
  have hquiet := headerLoop_quiet client_socket client_socket [] reads
  unfold get_content_length
  rcases hloop : headerLoop client_socket [] reads with ⟨events, header⟩
  rw [hloop] at hquiet
  cases header with
  | overflow => exact Or.inr (Or.inr ⟨by simp, rfl⟩)
  | bad => exact Or.inr (Or.inl ⟨events, hquiet, rfl, rfl⟩)
  | found headerField rest =>
      simp only
      split
      · exact Or.inr (Or.inl ⟨events, hquiet, rfl, rfl⟩)
      · split
        · exact Or.inr (Or.inl ⟨events, hquiet, rfl, rfl⟩)
        · exact Or.inl ⟨hquiet, rfl⟩

/-- A PUT that reaches its handler is answered, unless its header runs out of the array or
its length is given and not positive: then nothing is sent. -/
theorem process_put_request_answered_iff (files : Files) {client_socket : ℕ} {filename : List Char}
    (reads : List Read)
    (hfd : ∀ file_descriptor, files.openWrite filename = some file_descriptor →
      file_descriptor ≠ client_socket) :
    Answered files False client_socket (process_put_request files client_socket filename reads) ↔
      ∃ contentLength, (get_content_length client_socket reads).2.1 = some contentLength ∧
        (Quiet client_socket (get_content_length client_socket reads).1 → 0 < contentLength) := by
  have hcases := get_content_length_cases client_socket reads
  unfold process_put_request
  rcases hlength : get_content_length client_socket reads with ⟨events, length, rest⟩
  rw [hlength] at hcases
  rcases hcases with ⟨hquiet, hsome⟩ | ⟨before, hbefore, hevents, hvalue⟩ | ⟨hundefined, hnone⟩
  · obtain ⟨contentLength, hvalue⟩ := Option.isSome_iff_exists.mp hsome
    obtain rfl : length = some contentLength := hvalue
    by_cases hpos : contentLength ≤ 0
    · simp only [hpos, if_true]
      refine iff_of_false hquiet.not_answered ?_
      rintro ⟨_, hlength, hpositive⟩
      cases hlength
      exact absurd (hpositive hquiet) hpos.not_gt
    · simp only [hpos, if_false]
      refine iff_of_true ?_ ⟨contentLength, rfl, fun _ => not_le.mp hpos⟩
      cases hopen : files.openWrite filename with
      | none =>
          have hanswered := answered_send_response files False 500 hquiet
            (quiet_nil client_socket) (List.forall_mem_nil _) False.elim
          simpa using hanswered
      | some file_descriptor =>
          have hne := hfd file_descriptor hopen
          have hclose : Quiet client_socket [.close file_descriptor] := by
            simpa [Quiet, Event.quiet] using hne
          have hpass : Quiet client_socket (events ++ [.pass client_socket file_descriptor
              ((clientBytes rest).take contentLength.toNat)]) :=
            hquiet.append (by simpa [Quiet, Event.quiet] using hne)
          simp only
          split_ifs with hshort
          · have hanswered := answered_send_response files False 500 hpass hclose
              (by simpa [Event.touches] using hne) False.elim
            simpa using hanswered
          all_goals
            have hanswered := answered_send_response files False
              (if files.access filename then 200 else 201) (hpass.append hclose)
              (quiet_nil client_socket) (List.forall_mem_nil _) False.elim
            simpa [*] using hanswered
  · obtain rfl : events = before ++ send_response client_socket 400 := hevents
    obtain rfl : length = some (-1) := hvalue
    have hanswered := answered_send_response files False 400 hbefore
      (quiet_nil client_socket) (List.forall_mem_nil _) False.elim
    rw [List.append_nil] at hanswered
    exact iff_of_true hanswered ⟨-1, rfl, fun hquiet => absurd hanswered hquiet.not_answered⟩
  · obtain rfl : length = none := hnone
    refine iff_of_false (fun h => h.defined hundefined) ?_
    rintro ⟨_, hlength, -⟩
    cases hlength

end FavoriteAssignments.SingleThreaded
