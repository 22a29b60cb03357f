import FavoriteAssignments.Library.CStrings
import Mathlib.Data.BitVec

/-! # The single-threaded server

One iteration of the loop in `main` of `httpserver.c`, from an accepted connection on, as
the sequence of its calls on descriptors. The client is the outcomes of the reads of one
byte; the file system is what its calls return. -/

namespace FavoriteAssignments.SingleThreaded

open CStrings

def BUFFER_SIZE : ℕ := 2048

def PATH_MAX : ℕ := 4096

/-- The message of a status code. -/
def message : ℕ → String
  | 200 => "HTTP/1.1 200 OK\r\nContent-Length: 3\r\n\r\nOK\n"
  | 201 => "HTTP/1.1 201 Created\r\nContent-Length: 8\r\n\r\nCreated\n"
  | 400 => "HTTP/1.1 400 Bad Request\r\nContent-Length: 12\r\n\r\nBad Request\n"
  | 403 => "HTTP/1.1 403 Forbidden\r\nContent-Length: 11\r\n\r\nForbidden\n"
  | 404 => "HTTP/1.1 404 Not Found\r\nContent-Length: 10\r\n\r\nNot Found\n"
  | 501 => "HTTP/1.1 501 Not Implemented\r\nContent-Length: 16\r\n\r\nNot Implemented\n"
  | 505 => "HTTP/1.1 505 Version Not Supported\r\nContent-Length: 22\r\n\r\nVersion Not Supported\n"
  | _ => "HTTP/1.1 500 Internal Server Error\r\nContent-Length: 26\r\n\r\nInternal Server Error\n"

/-- A call on descriptors. `undefined` is a write past the end of an array, where the
sequence stops. -/
inductive Event where
  | read (fd : ℕ)
  | write (fd : ℕ) (message : List Char)
  | pass (src dst : ℕ) (data : List Char)
  | close (fd : ℕ)
  | undefined
  deriving DecidableEq, Repr

/-- The outcome of `read_n_bytes` for one byte; after the last one the client has closed
its end and 0 is returned. `interrupted` is an error with `EINTR`. -/
inductive Read where
  | byte (c : Char)
  | interrupted
  | failed
  deriving DecidableEq, Repr

/-- What the calls on files return: a descriptor from `open`, whether a file is a directory
and its size from `fstat`, its bytes, and whether `access` finds it. -/
structure Files where
  openRead : List Char → Option ℕ
  fstat : Option (Bool × ℕ)
  contents : List Char
  access : List Char → Bool
  openWrite : List Char → Option ℕ

/-- The variables of `main` in an iteration. -/
structure Locals where
  client_socket : ℕ
  method : List Char
  filename : List Char
  version : List Char
  deriving DecidableEq, Repr

def send_response (client_socket status_code : ℕ) : List Event :=
  [.write client_socket (message status_code).toList, .close client_socket]

/-! ## The request line -/

/-- `strncmp(method, "GET ", 4) == 0` or the same with `PUT`. -/
def is_valid_method (method : List Char) : Bool :=
  ['G', 'E', 'T', ' '].isPrefixOf method || ['P', 'U', 'T', ' '].isPrefixOf method

def is_valid_version (version : List Char) : Bool :=
  ['H', 'T', 'T', 'P', '/'].isPrefixOf version && version[5]? == some '1' &&
    version[6]? == some '.' && (version[7]? == some '0' || version[7]? == some '1')

def is_valid_filename (filename : List Char) : Bool :=
  filename.all fun p => p.isAlphanum || p == ' ' || p == '.' || p == '-'

/-- The words that `%s` converts, at most `n`. -/
def words : ℕ → List Char → List (List Char)
  | 0, _ => []
  | n + 1, s =>
      let s := s.dropWhile isspace
      if s = [] then []
      else s.takeWhile (fun c => !isspace c) :: words n (s.dropWhile fun c => !isspace c)

/-- The words fit `method[10]`, `filename[PATH_MAX]` and `version[10]`, with their NUL. -/
def fits (ws : List (List Char)) : Bool :=
  (List.zipWith (fun w size => decide (w.length < size)) ws [10, PATH_MAX, 10]).all id

def Locals.assign (locals : Locals) : List (List Char) → Locals
  | [] => locals
  | [method] => { locals with method }
  | [method, filename] => { locals with method, filename }
  | method :: filename :: version :: _ => { locals with method, filename, version }

/-- `sscanf(buffer, "%s %s %s", method, filename, version)`. `%s` has no bound: what the
variables of `main` hold after a word that does not fit, `spill`, depends on their places
in the frame. -/
def scan (spill : List (List Char) → Locals → Locals) (buffer : List Char) (locals : Locals) :
    ℕ × Locals :=
  let ws := words 3 buffer
  (ws.length, if fits ws then locals.assign ws else spill ws locals)

/-- The loop of `read_request_line` behind `line`, which leaves room in the buffer. `stale`
is what is on the stack from `buffer` on: a read that returns 0 leaves a character of it in
place, and behind a full buffer it goes on as a string. The result is the string scanned,
`none` for `return false`, and the reads left. -/
def requestLoop (client_socket : ℕ) (stale line : List Char) :
    List Read → List Event × Option (List Char) × List Read
  | [] => ([.read client_socket],
      if stale[line.length]? = some '\n' then some (cString line) else none, [])
  | .interrupted :: reads =>
      let (events, result) := requestLoop client_socket stale line reads
      (.read client_socket :: events, result)
  | .failed :: reads => ([.read client_socket], none, reads)
  | .byte c :: reads =>
      if c = '\n' then ([.read client_socket], some (cString line), reads)
      else
        let line := line ++ [c]
        if line.length < BUFFER_SIZE - 1 then
          let (events, result) := requestLoop client_socket stale line reads
          (.read client_socket :: events, result)
        else ([.read client_socket], some (cString (line ++ stale.drop line.length)), reads)

/-- The calls, the result, the variables of `main` and the reads left. -/
def read_request_line (spill : List (List Char) → Locals → Locals) (stale : List Char)
    (reads : List Read) (locals : Locals) : List Event × Bool × Locals × List Read :=
  let (events, buffer, reads) := requestLoop locals.client_socket stale [] reads
  match buffer with
  | none => (events, false, locals, reads)
  | some buffer =>
      let (count, locals) := scan spill buffer locals
      (events, count == 3, locals, reads)

/-! ## Requests -/

def process_get_request (files : Files) (client_socket : ℕ) (filename : List Char) : List Event :=
  match files.openRead filename with
  | none => send_response client_socket 404
  | some file_descriptor =>
      match files.fstat with
      | none => send_response client_socket 500 ++ [.close file_descriptor]
      | some (true, _) => send_response client_socket 403 ++ [.close file_descriptor]
      | some (false, st_size) =>
          send_response client_socket 200 ++
            [.pass file_descriptor client_socket (files.contents.take st_size), .close file_descriptor]

/-- What the loop of `get_content_length` ends with. -/
inductive Header where
  | found (headerField : List Char) (reads : List Read)
  | bad
  | overflow

/-- The loop of `get_content_length`. Nothing stops it at the end of `headerField`, which
takes a NUL after the last byte as well. -/
def headerLoop (client_socket : ℕ) (headerField : List Char) : List Read → List Event × Header
  | .byte c :: reads =>
      if BUFFER_SIZE ≤ headerField.length then ([.read client_socket], .overflow)
      else
        let headerField := headerField ++ [c]
        if ['\r', '\n', '\r', '\n'].isSuffixOf headerField then
          ([.read client_socket],
            if headerField.length < BUFFER_SIZE then .found headerField reads else .overflow)
        else
          let (events, header) := headerLoop client_socket headerField reads
          (.read client_socket :: events, header)
  | _ => ([.read client_socket], .bad)

/-- `strstr`: the haystack from the first occurrence on. -/
def strstr (needle : List Char) : List Char → Option (List Char)
  | [] => if needle = [] then some [] else none
  | c :: haystack =>
      if needle.isPrefixOf (c :: haystack) then some (c :: haystack) else strstr needle haystack

/-- `atoi` as the conversion of `strtol` to `int`. -/
def atoi (s : List Char) : ℤ :=
  let s := s.dropWhile isspace
  let digits := (if s.head? = some '-' ∨ s.head? = some '+' then s.tail else s).takeWhile Char.isDigit
  let value : ℤ := if s.head? = some '-' then -numeralValue digits else numeralValue digits
  (BitVec.ofInt 32 (max (-(2 ^ 63)) (min (2 ^ 63 - 1) value))).toInt

/-- The calls, the length, `none` where the array is left, and the reads left. -/
def get_content_length (client_socket : ℕ) (reads : List Read) : List Event × Option ℤ × List Read :=
  match headerLoop client_socket [] reads with
  | (events, .overflow) => (events ++ [.undefined], none, [])
  | (events, .bad) => (events ++ send_response client_socket 400, some (-1), [])
  | (events, .found headerField reads) =>
      let searchHeader := "Content-Length:".toList
      match strstr searchHeader (cString headerField) with
      | none => (events ++ send_response client_socket 400, some (-1), reads)
      | some headerStart =>
          let headerStart := headerStart.drop searchHeader.length
          match strstr ['\r', '\n'] headerStart with
          | none => (events ++ send_response client_socket 400, some (-1), reads)
          | some headerEnd =>
              (events, some (atoi (headerStart.take (headerStart.length - headerEnd.length))), reads)

/-- The bytes that `pass_n_bytes` takes from the client: the reads of single bytes stand
for what the client sends. -/
def clientBytes : List Read → List Char
  | .byte c :: reads => c :: clientBytes reads
  | _ => []

def process_put_request (files : Files) (client_socket : ℕ) (filename : List Char)
    (reads : List Read) : List Event :=
  match get_content_length client_socket reads with
  | (events, none, _) => events
  | (events, some contentLength, reads) =>
      if contentLength ≤ 0 then events
      else
        match files.openWrite filename with
        | none => events ++ send_response client_socket 500
        | some file_descriptor =>
            let data := (clientBytes reads).take contentLength.toNat
            events ++ .pass client_socket file_descriptor data ::
              if data.length < contentLength then
                send_response client_socket 500 ++ [.close file_descriptor]
              else
                .close file_descriptor ::
                  send_response client_socket (if files.access filename then 200 else 201)

/-- An iteration of the loop of `main` for the connection in `locals`. -/
def iteration (spill : List (List Char) → Locals → Locals) (files : Files) (stale : List Char)
    (reads : List Read) (locals : Locals) : List Event :=
  let (events, read, locals, reads) := read_request_line spill stale reads locals
  events ++
    if !read || !is_valid_method locals.method || !is_valid_version locals.version ||
        !is_valid_filename locals.filename then
      send_response locals.client_socket 400
    else if locals.method = ['G', 'E', 'T'] then
      process_get_request files locals.client_socket locals.filename
    else if locals.method = ['P', 'U', 'T'] then
      process_put_request files locals.client_socket locals.filename reads
    else send_response locals.client_socket 501

end FavoriteAssignments.SingleThreaded
