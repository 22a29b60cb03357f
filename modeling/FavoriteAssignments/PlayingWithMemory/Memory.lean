import FavoriteAssignments.Library.CStrings

/-! # The memory program

`main` of `memory.c` as a function of the bytes on its standard input, a byte being the
character with its code. Reading a byte stream does not fail, and `malloc` finds room.
The buffers are NUL-terminated, so what is read behind a NUL is not seen again. -/

namespace FavoriteAssignments.Memory

open CStrings

def PATH_MAX : ℕ := 4096

def MAX_FILENAME_LEN : ℕ := 4096

def MAX_CONTENT_SIZE : ℕ := 10485760

/-- The operation that `main` runs, or the exit with `Invalid Command`. -/
inductive Outcome where
  | get (filePath : List Char)
  | set (filePath dataBuffer : List Char)
  | invalid
  deriving DecidableEq, Repr

def isascii (c : Char) : Bool := c.toNat < 128

def isValidFilename (filename : List Char) : Bool :=
  decide (filename.length < PATH_MAX) && filename.all fun c => isascii c && !isspace c

/-- The loop of `readLine` with room for `room` characters: what it stores, and what is
left of the input. A line that fills the room keeps its end in the input. -/
def readLineLoop : ℕ → List Char → List Char × List Char
  | 0, input => ([], input)
  | _ + 1, [] => ([], [])
  | room + 1, ch :: input =>
      if ch = '\n' then ([], input)
      else
        let (buffer, rest) := readLineLoop room input
        (ch :: buffer, rest)

/-- The result, the buffer and the rest of the input. -/
def readLine (bufferSize : ℕ) (input : List Char) : ℕ × List Char × List Char :=
  let (buffer, rest) := readLineLoop (bufferSize - 1) input
  (buffer.length, buffer, rest)

/-- `strtoul` of a sign and decimal digits: beyond the range the greatest number, and a
negated number modulo `2 ^ 64`. -/
def strtoul (negative : Bool) (digits : List Char) : ℕ :=
  if 2 ^ 64 ≤ numeralValue digits then 2 ^ 64 - 1
  else if negative then (2 ^ 64 - numeralValue digits) % 2 ^ 64
  else numeralValue digits

/-- `sscanf(s, "%lu", &size)`, `none` where nothing is converted. -/
def sscanf_lu (s : List Char) : Option ℕ :=
  let s := s.dropWhile isspace
  let negative := s.head? = some '-'
  let s := if s.head? = some '-' ∨ s.head? = some '+' then s.tail else s
  let digits := s.takeWhile Char.isDigit
  if digits = [] then none else some (strtoul negative digits)

/-- A byte that is read and is not a new line. -/
def checkForMissingNewlineAfterGet (input : List Char) : Bool :=
  match input with
  | [] => false
  | buffer :: _ => buffer ≠ '\n'

/-- The loop that reads the content. The call number `turn` of `read` returns at most
`ready turn` bytes, and at least one unless the input is at its end. -/
def readLoop (ready : ℕ → ℕ) (dataSize turn : ℕ) (dataBuffer input : List Char) : List Char :=
  let bytesRead := min (max 1 (ready turn)) (min (dataSize - dataBuffer.length) input.length)
  if dataBuffer.length < dataSize ∧ bytesRead ≠ 0 then
    readLoop ready dataSize (turn + 1) (dataBuffer ++ input.take bytesRead) (input.drop bytesRead)
  else dataBuffer
termination_by input.length
decreasing_by
  simp only [List.length_drop]
  omega

/-- `main`. -/
def main (ready : ℕ → ℕ) (input : List Char) : Outcome :=
  let (nRead, operationType, input) := readLine 10 input
  if nRead = 0 then .invalid
  else if cString operationType = ['g', 'e', 't'] then
    let (nRead, filePath, input) := readLine MAX_FILENAME_LEN input
    if nRead = 0 ∨ !isValidFilename (cString filePath) then .invalid
    else if checkForMissingNewlineAfterGet input then .invalid
    else .get (cString filePath)
  else if cString operationType = ['s', 'e', 't'] then
    let (nRead, filePath, input) := readLine MAX_FILENAME_LEN input
    if nRead = 0 then .invalid
    else
      let (nRead, dataSizeStr, input) := readLine 20 input
      if nRead = 0 then .invalid
      else
        match sscanf_lu (cString dataSizeStr) with
        | none => .invalid
        | some dataSize =>
            if dataSize > MAX_CONTENT_SIZE ∨ !isValidFilename (cString filePath) then .invalid
            else .set (cString filePath) (readLoop ready dataSize 0 [] input)
  else .invalid

/-! ## Lines -/

/-- What `readLineLoop` does with an input: it meets the end of a line, the end of the
input, or the end of its room. -/
inductive LineRead : ℕ → List Char → List Char → List Char → Prop where
  | newline {room line} (rest) : '\n' ∉ line → line.length < room →
      LineRead room (line ++ '\n' :: rest) line rest
  | ended {room line} : '\n' ∉ line → line.length < room → LineRead room line line []
  | full {room line} (rest) : '\n' ∉ line → line.length = room → LineRead room (line ++ rest) line rest

theorem LineRead.execution {room : ℕ} {input line rest : List Char} (h : LineRead room input line rest) :
    readLineLoop room input = (line, rest) := by
  cases h with
  | newline rest hline hroom =>
      induction line generalizing room with
      | nil =>
          obtain ⟨room, rfl⟩ := Nat.exists_eq_succ_of_ne_zero (Nat.ne_zero_of_lt hroom)
          rfl
      | cons c line ih =>
          obtain ⟨room, rfl⟩ := Nat.exists_eq_succ_of_ne_zero (Nat.ne_zero_of_lt hroom)
          simp only [List.mem_cons, not_or] at hline
          simp [readLineLoop, Ne.symm hline.1, ih hline.2 (by simpa using hroom)]
  | ended hline hroom =>
      induction input generalizing room with
      | nil =>
          obtain ⟨room, rfl⟩ := Nat.exists_eq_succ_of_ne_zero (Nat.ne_zero_of_lt hroom)
          rfl
      | cons c line ih =>
          obtain ⟨room, rfl⟩ := Nat.exists_eq_succ_of_ne_zero (Nat.ne_zero_of_lt hroom)
          simp only [List.mem_cons, not_or] at hline
          simp [readLineLoop, Ne.symm hline.1, ih hline.2 (by simpa using hroom)]
  | full rest hline hroom =>
      subst hroom
      induction line with
      | nil => rfl
      | cons c line ih =>
          simp only [List.mem_cons, not_or] at hline
          simp [readLineLoop, Ne.symm hline.1, ih hline.2]

theorem LineRead.line_spec {room : ℕ} {input line rest : List Char} (h : LineRead room input line rest) :
    '\n' ∉ line ∧ line.length ≤ room := by
  cases h with
  | newline rest hline hroom => exact ⟨hline, hroom.le⟩
  | ended hline hroom => exact ⟨hline, hroom.le⟩
  | full rest hline hroom => exact ⟨hline, hroom.le⟩

theorem readLineLoop_lineRead (room : ℕ) (input : List Char) :
    LineRead room input (readLineLoop room input).1 (readLineLoop room input).2 := by
  fun_induction readLineLoop room input with
  | case1 input => exact .full input List.not_mem_nil rfl
  | case2 room => exact .ended List.not_mem_nil (Nat.succ_pos room)
  | case3 room input => exact .newline input List.not_mem_nil (Nat.succ_pos room)
  | case4 room ch input hne buffer rest hread ih =>
      rw [hread] at ih
      have hline : '\n' ∉ ch :: buffer := by
        simpa [Ne.symm hne] using ih.line_spec.1
      cases ih with
      | newline rest _ hroom => exact .newline rest hline (Nat.succ_lt_succ hroom)
      | ended _ hroom => exact .ended hline (Nat.succ_lt_succ hroom)
      | full rest _ hroom => exact .full rest hline (congrArg Nat.succ hroom)

theorem lineRead_iff {room : ℕ} {input line rest : List Char} :
    LineRead room input line rest ↔ readLineLoop room input = (line, rest) := by
  refine ⟨LineRead.execution, ?_⟩
  intro h
  simpa only [h] using readLineLoop_lineRead room input

/-- What is left to read after a part of it was read. -/
theorem append_take_part {dataSize bytesRead : ℕ} {dataBuffer input : List Char}
    (hroom : bytesRead ≤ dataSize - dataBuffer.length) (hinput : bytesRead ≤ input.length) :
    dataBuffer ++ input.take bytesRead ++ (input.drop bytesRead).take
        (dataSize - (dataBuffer ++ input.take bytesRead).length) =
      dataBuffer ++ input.take (dataSize - dataBuffer.length) := by
  have hlen : (input.take bytesRead).length = bytesRead := by
    rw [List.length_take]
    omega
  have hsplit : dataSize - dataBuffer.length =
      bytesRead + (dataSize - (dataBuffer ++ input.take bytesRead).length) := by
    rw [List.length_append, hlen]
    omega
  rw [List.append_assoc, hsplit, List.take_add]

/-- The content is as much of the input as was asked for, however it arrives. -/
theorem readLoop_eq (ready : ℕ → ℕ) (dataSize turn : ℕ) (dataBuffer input : List Char) :
    readLoop ready dataSize turn dataBuffer input =
      dataBuffer ++ input.take (dataSize - dataBuffer.length) := by
  fun_induction readLoop ready dataSize turn dataBuffer input with
  | case1 turn dataBuffer input bytesRead hmore ih =>
      rw [ih, append_take_part (by omega) (by omega)]
  | case2 turn dataBuffer input bytesRead hdone =>
      have hnothing : input.take (dataSize - dataBuffer.length) = [] := by
        rw [List.take_eq_nil_iff, ← List.length_eq_zero_iff]
        omega
      rw [hnothing, List.append_nil]

end FavoriteAssignments.Memory
