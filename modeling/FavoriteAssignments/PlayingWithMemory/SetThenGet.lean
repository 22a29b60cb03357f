import FavoriteAssignments.Library.Schedules
import FavoriteAssignments.PlayingWithMemory.Memory

/-! # What is set and got again

The loops of `memory.c` that move the content, with calls that transfer less than they are asked
for or are interrupted. The files are directories and regular files that the program may open. -/

namespace FavoriteAssignments.Memory

open Schedules

/-! ## Buffers and files -/

/-- Bytes of a buffer that are handed to a call of `read` or `write`. -/
structure Access where
  offset : ℕ
  count : ℕ

def Access.Inside (size : ℕ) (a : Access) : Prop := a.offset + a.count ≤ size

/-- A call for the rest of a buffer. -/
theorem Access.inside_rest {offset size : ℕ} (h : offset < size) :
    Access.Inside size ⟨offset, size - offset⟩ :=
  (Nat.add_sub_of_le h.le).le

inductive Node where
  | dir
  | file (contents : List Char)
  deriving DecidableEq

/-- What the names stand for, and where a file may be made. -/
structure Disk where
  node : List Char → Option Node
  mayCreate : List Char → Bool

def Disk.store (disk : Disk) (filePath contents : List Char) : Disk :=
  { disk with node := Function.update disk.node filePath (some (.file contents)) }

/-- `open(filePath, O_WRONLY | O_CREAT | O_TRUNC, 0664)`. -/
def Disk.openWrite (disk : Disk) (filePath : List Char) : Option Disk :=
  match disk.node filePath with
  | some .dir => none
  | some (.file _) => some (disk.store filePath [])
  | none => if disk.mayCreate filePath then some (disk.store filePath []) else none

/-! ## Set -/

/-- The loop of `main` that reads the content: the filled part of `dataBuffer`, `none` for
`Operation Failed`, and its calls of `read`. -/
def contentLoop (stdin : Calls) (dataSize turn : ℕ) (dataBuffer input : List Char) :
    Option (List Char) × List Access :=
  if dataBuffer.length < dataSize then
    let access : Access := ⟨dataBuffer.length, dataSize - dataBuffer.length⟩
    match h : stdin.result turn with
    | .interrupted =>
        let rest := contentLoop stdin dataSize (turn + 1) dataBuffer input
        (rest.1, access :: rest.2)
    | .failed => (none, [access])
    | .moved n =>
        let bytesRead := min (n + 1) (min (dataSize - dataBuffer.length) input.length)
        if bytesRead = 0 then (some dataBuffer, [access])
        else
          let rest := contentLoop stdin dataSize (turn + 1)
            (dataBuffer ++ input.take bytesRead) (input.drop bytesRead)
          (rest.1, access :: rest.2)
  else (some dataBuffer, [])
termination_by (input.length, stdin.wait turn)
decreasing_by
  · exact Prod.Lex.right _ (stdin.wait_succ_lt h)
  · apply Prod.Lex.left
    rw [List.length_drop]
    omega

/-- Whether `OK` is printed, the files, and what was read of or written to `dataBuffer`. -/
structure SetResult where
  ok : Bool
  disk : Disk
  accesses : List Access

/-- The single `write` returns `numWritten`. -/
def executeSetOperation (numWritten : ℤ) (disk : Disk) (filePath dataBuffer : List Char) :
    SetResult :=
  match disk.openWrite filePath with
  | none => ⟨false, disk, []⟩
  | some disk =>
      ⟨numWritten = dataBuffer.length, disk.store filePath (dataBuffer.take numWritten.toNat),
        [⟨0, dataBuffer.length⟩]⟩

/-- `main` from the allocation of `dataBuffer` on. -/
def setContent (stdin : Calls) (numWritten : ℤ) (disk : Disk) (filePath : List Char)
    (dataSize : ℕ) (input : List Char) : SetResult :=
  let (dataBuffer, accesses) := contentLoop stdin dataSize 0 [] input
  match dataBuffer with
  | none => ⟨false, disk, accesses⟩
  | some dataBuffer =>
      let result := executeSetOperation numWritten disk filePath dataBuffer
      { result with accesses := accesses ++ result.accesses }

/-! ## Get -/

/-- What is written to the standard output, the number of the next call of `write`, and what was
read of or written to `readBuffer`. `ok` is false after `Operation Failed`. -/
structure Output where
  ok : Bool
  written : List Char
  turn : ℕ
  accesses : List Access

/-- The loop of `executeGetOperation` that writes the `numRead` bytes in `readBuffer`. -/
def writeLoop (stdout : Calls) (turn : ℕ) (readBuffer : List Char) (totalWritten : ℕ) : Output :=
  if totalWritten < readBuffer.length then
    let access : Access := ⟨totalWritten, readBuffer.length - totalWritten⟩
    match h : stdout.result turn with
    | .interrupted =>
        let rest := writeLoop stdout (turn + 1) readBuffer totalWritten
        { rest with accesses := access :: rest.accesses }
    | .failed => ⟨false, [], turn + 1, [access]⟩
    | .moved n =>
        let numWritten := min (n + 1) (readBuffer.length - totalWritten)
        let rest := writeLoop stdout (turn + 1) readBuffer (totalWritten + numWritten)
        { rest with
          written := (readBuffer.drop totalWritten).take numWritten ++ rest.written
          accesses := access :: rest.accesses }
  else ⟨true, [], turn, []⟩
termination_by (readBuffer.length - totalWritten, stdout.wait turn)
decreasing_by
  · exact Prod.Lex.right _ (stdout.wait_succ_lt h)
  · apply Prod.Lex.left
    omega

/-- The size of `readBuffer`. -/
def READ_SIZE : ℕ := 1024

/-- The loop of `executeGetOperation` that reads the rest of a file. It ends at the end of the
file and at every error. -/
def getLoop (file stdout : Calls) (readTurn writeTurn : ℕ) (contents : List Char) : Output :=
  let access : Access := ⟨0, READ_SIZE⟩
  match file.result readTurn with
  | .moved n =>
      let numRead := min (n + 1) (min READ_SIZE contents.length)
      if numRead = 0 then ⟨true, [], writeTurn, [access]⟩
      else
        let inner := writeLoop stdout writeTurn (contents.take numRead) 0
        if inner.ok then
          let rest := getLoop file stdout (readTurn + 1) inner.turn (contents.drop numRead)
          { rest with
            written := inner.written ++ rest.written
            accesses := access :: inner.accesses ++ rest.accesses }
        else { inner with accesses := access :: inner.accesses }
  | _ => ⟨true, [], writeTurn, [access]⟩
termination_by contents.length
decreasing_by
  rw [List.length_drop]
  omega

/-- `none` for `Invalid Command`. -/
def executeGetOperation (file stdout : Calls) (disk : Disk) (filePath : List Char) :
    Option Output :=
  match disk.node filePath with
  | none => none
  | some .dir => none
  | some (.file contents) => some (getLoop file stdout 0 0 contents)

/-! ## What the loops move -/

/-- The loop that reads the content fails, or it fills as much of the buffer as there is. -/
theorem contentLoop_eq (stdin : Calls) (dataSize turn : ℕ) (dataBuffer input : List Char) :
    (contentLoop stdin dataSize turn dataBuffer input).1 = none ∨
      (contentLoop stdin dataSize turn dataBuffer input).1 =
        some (dataBuffer ++ input.take (dataSize - dataBuffer.length)) := by
  fun_induction contentLoop stdin dataSize turn dataBuffer input with
  | case1 turn dataBuffer input _ _ _ rest ih => exact ih
  | case2 => exact .inl rfl
  | case3 turn dataBuffer input hroom _ n _ bytesRead hend =>
      have hinput : input = [] := by
        rw [← List.length_eq_zero_iff]
        omega
      right
      simp [hinput]
  | case4 turn dataBuffer input hroom _ n _ bytesRead hmore rest ih =>
      rw [append_take_part (by omega) (by omega)] at ih
      exact ih
  | case5 turn dataBuffer input hfull =>
      right
      simp [Nat.sub_eq_zero_of_le (not_lt.mp hfull)]

theorem contentLoop_isSome {stdin : Calls} (hstdin : ∀ turn, stdin.result turn ≠ .failed)
    (dataSize turn : ℕ) (dataBuffer input : List Char) :
    (contentLoop stdin dataSize turn dataBuffer input).1.isSome = true := by
  fun_induction contentLoop stdin dataSize turn dataBuffer input with
  | case1 turn dataBuffer input _ _ _ rest ih => exact ih
  | case2 turn dataBuffer input _ _ hfailed => exact (hstdin turn hfailed).elim
  | case3 => rfl
  | case4 turn dataBuffer input _ _ n _ bytesRead _ rest ih => exact ih
  | case5 => rfl

/-- Interrupted calls make no difference to what the program reads. -/
theorem contentLoop_readLoop (stdin : Calls) (ready : ℕ → ℕ) {dataSize : ℕ}
    {dataBuffer input : List Char}
    (h : (contentLoop stdin dataSize 0 [] input).1 = some dataBuffer) :
    dataBuffer = readLoop ready dataSize 0 [] input := by
  rw [readLoop_eq]
  rcases contentLoop_eq stdin dataSize 0 [] input with hfail | hdone
  · rw [hfail] at h
    cases h
  · rw [hdone] at h
    exact (Option.some.inj h).symm

theorem contentLoop_inside (stdin : Calls) (dataSize turn : ℕ) (dataBuffer input : List Char) :
    ∀ a ∈ (contentLoop stdin dataSize turn dataBuffer input).2, a.Inside dataSize := by
  fun_induction contentLoop stdin dataSize turn dataBuffer input with
  | case1 turn dataBuffer input hroom access _ rest ih =>
      exact List.forall_mem_cons.mpr ⟨Access.inside_rest hroom, ih⟩
  | case2 turn dataBuffer input hroom =>
      exact List.forall_mem_singleton.mpr (Access.inside_rest hroom)
  | case3 turn dataBuffer input hroom =>
      exact List.forall_mem_singleton.mpr (Access.inside_rest hroom)
  | case4 turn dataBuffer input hroom access n _ bytesRead _ rest ih =>
      exact List.forall_mem_cons.mpr ⟨Access.inside_rest hroom, ih⟩
  | case5 => exact List.forall_mem_nil _

/-- The loop that writes gets through all that was read, wherever it was interrupted. -/
theorem writeLoop_written {stdout : Calls} (hstdout : ∀ turn, stdout.result turn ≠ .failed)
    (turn : ℕ) (readBuffer : List Char) (totalWritten : ℕ) :
    (writeLoop stdout turn readBuffer totalWritten).ok = true ∧
      (writeLoop stdout turn readBuffer totalWritten).written = readBuffer.drop totalWritten := by
  fun_induction writeLoop stdout turn readBuffer totalWritten with
  | case1 turn totalWritten _ _ _ rest ih => exact ih
  | case2 turn totalWritten _ _ hfailed => exact (hstdout turn hfailed).elim
  | case3 turn totalWritten _ _ n _ numWritten rest ih =>
      refine ⟨ih.1, ?_⟩
      rw [← List.drop_drop] at ih
      dsimp only
      rw [ih.2, List.take_append_drop]
  | case4 turn totalWritten hdone => exact ⟨rfl, (List.drop_of_length_le (not_lt.mp hdone)).symm⟩

theorem writeLoop_inside (stdout : Calls) (turn : ℕ) (readBuffer : List Char) (totalWritten : ℕ) :
    ∀ a ∈ (writeLoop stdout turn readBuffer totalWritten).accesses,
      a.Inside readBuffer.length := by
  fun_induction writeLoop stdout turn readBuffer totalWritten with
  | case1 turn totalWritten hmore _ _ rest ih =>
      exact List.forall_mem_cons.mpr ⟨Access.inside_rest hmore, ih⟩
  | case2 turn totalWritten hmore =>
      exact List.forall_mem_singleton.mpr (Access.inside_rest hmore)
  | case3 turn totalWritten hmore _ n _ numWritten rest ih =>
      exact List.forall_mem_cons.mpr ⟨Access.inside_rest hmore, ih⟩
  | case4 => exact List.forall_mem_nil _

theorem getLoop_inside (file stdout : Calls) (readTurn writeTurn : ℕ) (contents : List Char) :
    ∀ a ∈ (getLoop file stdout readTurn writeTurn contents).accesses, a.Inside READ_SIZE := by
  have hinner : ∀ writeTurn numRead (contents : List Char), numRead ≤ READ_SIZE →
      ∀ a ∈ (writeLoop stdout writeTurn (contents.take numRead) 0).accesses,
        a.Inside READ_SIZE := by
    intro writeTurn numRead contents hle a ha
    have hinside := writeLoop_inside stdout writeTurn (contents.take numRead) 0 a ha
    exact hinside.trans ((List.length_take_le _ _).trans hle)
  have hread : Access.Inside READ_SIZE ⟨0, READ_SIZE⟩ := (Nat.zero_add _).le
  fun_induction getLoop file stdout readTurn writeTurn contents with
  | case1 => exact List.forall_mem_singleton.mpr hread
  | case2 readTurn writeTurn contents _ n _ numRead _ inner _ rest ih =>
      rw [List.forall_mem_append, List.forall_mem_cons]
      exact ⟨⟨hread, hinner writeTurn numRead contents (by omega)⟩, ih⟩
  | case3 readTurn writeTurn contents _ n _ numRead _ inner =>
      exact List.forall_mem_cons.mpr ⟨hread, hinner writeTurn numRead contents (by omega)⟩
  | case4 => exact List.forall_mem_singleton.mpr hread

/-- An error of `read` is not told from the end of the file. -/
theorem getLoop_ok {file stdout : Calls} (hstdout : ∀ turn, stdout.result turn ≠ .failed)
    (readTurn writeTurn : ℕ) (contents : List Char) :
    (getLoop file stdout readTurn writeTurn contents).ok = true := by
  fun_induction getLoop file stdout readTurn writeTurn contents with
  | case1 => rfl
  | case2 readTurn writeTurn contents _ n _ numRead _ inner _ rest ih => exact ih
  | case3 readTurn writeTurn contents _ n _ numRead _ inner hok =>
      exact (hok (writeLoop_written hstdout _ _ _).1).elim
  | case4 => rfl

/-- How many bytes `k` calls of `read` for a whole `readBuffer` are ready for. -/
def offered (file : Calls) (turn k : ℕ) : ℕ :=
  ∑ j ∈ Finset.range k, min (file.result (turn + j)).bytes READ_SIZE

theorem offered_succ (file : Calls) (turn k : ℕ) :
    offered file turn (k + 1) =
      min (file.result turn).bytes READ_SIZE + offered file (turn + 1) k := by
  rw [offered, Finset.sum_range_succ', Nat.add_zero, Nat.add_comm, offered]
  congr 1
  refine Finset.sum_congr rfl fun j _ => ?_
  rw [Nat.add_assoc, Nat.add_comm 1 j]

/-- The loop that reads delivers a file if the calls in front of the first error are ready for
all of it. -/
theorem getLoop_written {file stdout : Calls} (hstdout : ∀ turn, stdout.result turn ≠ .failed)
    (readTurn writeTurn : ℕ) (contents : List Char) :
    (getLoop file stdout readTurn writeTurn contents).written = contents ↔
      ∀ k, (file.result (readTurn + k)).bytes = 0 →
        contents.length ≤ offered file readTurn k := by
  have hsize : 0 < READ_SIZE := by decide
  fun_induction getLoop file stdout readTurn writeTurn contents with
  | case1 readTurn writeTurn contents _ n hresult numRead hend =>
      obtain rfl : contents = [] := by
        rw [← List.length_eq_zero_iff]
        omega
      simp
  | case2 readTurn writeTurn contents _ n hresult numRead hmore inner hok rest ih =>
      have hinner : inner.written = contents.take numRead :=
        (writeLoop_written hstdout writeTurn (contents.take numRead) 0).2
      have hbytes : (file.result readTurn).bytes = n + 1 := by rw [hresult, Result.bytes]
      have hrest : inner.written ++ rest.written = contents ↔
          rest.written = contents.drop numRead := by
        rw [hinner]
        constructor
        · intro h
          exact List.append_cancel_left (h.trans (List.take_append_drop numRead contents).symm)
        · intro h
          rw [h, List.take_append_drop]
      refine hrest.trans (ih.trans ?_)
      rw [List.length_drop]
      constructor
      · intro hall k hk
        cases k with
        | zero =>
            rw [Nat.add_zero, hbytes] at hk
            omega
        | succ k =>
            have hle := hall k (by rwa [Nat.add_assoc, Nat.add_comm 1 k])
            rw [offered_succ, hbytes]
            omega
      · intro hall k hk
        have hle := hall (k + 1) (by rwa [Nat.add_comm k 1, ← Nat.add_assoc])
        rw [offered_succ, hbytes] at hle
        omega
  | case3 readTurn writeTurn contents _ n _ numRead _ inner hok =>
      exact (hok (writeLoop_written hstdout _ _ _).1).elim
  | case4 readTurn writeTurn contents _ herror =>
      have hbytes : (file.result readTurn).bytes = 0 := by
        cases hresult : file.result readTurn with
        | moved n => exact (herror n hresult).elim
        | interrupted => rfl
        | failed => rfl
      constructor
      · intro hempty
        simp [← hempty]
      · intro hall
        have hlen := hall 0 hbytes
        exact (List.length_eq_zero_iff.mp (Nat.le_zero.mp hlen)).symm

/-! ## Both commands -/

theorem executeSetOperation_ok {numWritten : ℤ} {disk : Disk} {filePath dataBuffer : List Char}
    (h : (executeSetOperation numWritten disk filePath dataBuffer).ok = true) :
    (executeSetOperation numWritten disk filePath dataBuffer).disk.node filePath =
        some (.file dataBuffer) ∧
      (executeSetOperation numWritten disk filePath dataBuffer).accesses =
        [⟨0, dataBuffer.length⟩] := by
  unfold executeSetOperation at h ⊢
  cases hopen : disk.openWrite filePath with
  | none =>
      rw [hopen] at h
      cases h
  | some opened =>
      rw [hopen] at h
      obtain rfl : numWritten = dataBuffer.length := of_decide_eq_true h
      simp [Disk.store]

/-- The file after a `set` that prints `OK`, and the accesses to `dataBuffer`. -/
theorem setContent_ok {stdin : Calls} {numWritten : ℤ} {disk : Disk} {filePath : List Char}
    {dataSize : ℕ} {content : List Char}
    (h : (setContent stdin numWritten disk filePath dataSize content).ok = true) :
    (setContent stdin numWritten disk filePath dataSize content).disk.node filePath =
        some (.file (content.take dataSize)) ∧
      ∀ a ∈ (setContent stdin numWritten disk filePath dataSize content).accesses,
        a.Inside dataSize := by
  have hinside := contentLoop_inside stdin dataSize 0 [] content
  have hresult := contentLoop_eq stdin dataSize 0 [] content
  unfold setContent at h ⊢
  rcases hloop : contentLoop stdin dataSize 0 [] content with ⟨dataBuffer, accesses⟩
  rw [hloop] at h hinside hresult
  cases dataBuffer with
  | none => cases h
  | some dataBuffer =>
      obtain rfl : dataBuffer = content.take dataSize := by simpa using hresult
      obtain ⟨hnode, haccesses⟩ := executeSetOperation_ok h
      refine ⟨hnode, ?_⟩
      dsimp only
      rw [haccesses, List.forall_mem_append, List.forall_mem_singleton]
      refine ⟨hinside, ?_⟩
      rw [Access.Inside, Nat.zero_add]
      exact List.length_take_le _ _

/-- `OK` is printed where no call fails and the single `write` transfers its whole count. -/
theorem setContent_prints_ok {stdin : Calls} (hstdin : ∀ turn, stdin.result turn ≠ .failed)
    {disk : Disk} {filePath : List Char} (hopen : (disk.openWrite filePath).isSome = true)
    (dataSize : ℕ) (content : List Char) :
    (setContent stdin (min dataSize content.length : ℕ) disk filePath dataSize content).ok =
      true := by
  have hsome := contentLoop_isSome hstdin dataSize 0 [] content
  have hresult := contentLoop_eq stdin dataSize 0 [] content
  unfold setContent
  rcases hloop : contentLoop stdin dataSize 0 [] content with ⟨dataBuffer, accesses⟩
  rw [hloop] at hsome hresult
  cases dataBuffer with
  | none => cases hsome
  | some dataBuffer =>
      obtain rfl : dataBuffer = content.take dataSize := by simpa using hresult
      obtain ⟨opened, hopened⟩ := Option.isSome_iff_exists.mp hopen
      simp [executeSetOperation, hopened]

/-- A `set`, and a `get` of the same name. -/
def setThenGet (stdin file stdout : Calls) (numWritten : ℤ) (disk : Disk) (filePath : List Char)
    (dataSize : ℕ) (content : List Char) : SetResult × Option Output :=
  let set := setContent stdin numWritten disk filePath dataSize content
  (set, executeGetOperation file stdout set.disk filePath)

/-- The `get` writes the first bytes of the content, as many as there are up to `dataSize`, and
both commands stay inside of their buffers. -/
structure GetsContent (run : SetResult × Option Output) (dataSize : ℕ) (content : List Char) :
    Prop where
  written : ∃ output, run.2 = some output ∧ output.ok = true ∧
    output.written = content.take dataSize ∧ ∀ a ∈ output.accesses, a.Inside READ_SIZE
  accesses : ∀ a ∈ run.1.accesses, a.Inside dataSize

theorem setThenGet_get {stdin : Calls} (file stdout : Calls) {numWritten : ℤ} {disk : Disk}
    {filePath : List Char} {dataSize : ℕ} {content : List Char}
    (hok : (setThenGet stdin file stdout numWritten disk filePath dataSize content).1.ok = true) :
    (setThenGet stdin file stdout numWritten disk filePath dataSize content).2 =
      some (getLoop file stdout 0 0 (content.take dataSize)) := by
  rw [setThenGet] at hok ⊢
  dsimp only
  rw [executeGetOperation, (setContent_ok hok).1]

/-- What was set is got again unless a `read` of the file is interrupted in front of its end. -/
theorem set_then_get (stdin file stdout : Calls) (numWritten : ℤ) (disk : Disk)
    (filePath : List Char) (dataSize : ℕ) (content : List Char)
    (hstdout : ∀ turn, stdout.result turn ≠ .failed)
    (hok : (setThenGet stdin file stdout numWritten disk filePath dataSize content).1.ok = true) :
    GetsContent (setThenGet stdin file stdout numWritten disk filePath dataSize content) dataSize
        content ↔
      ∀ k, (file.result k).bytes = 0 → min dataSize content.length ≤ offered file 0 k := by
  have hget := setThenGet_get file stdout hok
  have hwritten : (getLoop file stdout 0 0 (content.take dataSize)).written =
      content.take dataSize ↔ _ := getLoop_written hstdout 0 0 (content.take dataSize)
  rw [List.length_take] at hwritten
  simp only [Nat.zero_add] at hwritten
  refine Iff.trans ⟨?_, ?_⟩ hwritten
  · rintro ⟨⟨output, hout, -, hfirst, -⟩, -⟩
    rw [hget] at hout
    obtain rfl := Option.some.inj hout
    exact hfirst
  · intro hfirst
    exact ⟨⟨_, hget, getLoop_ok hstdout _ _ _, hfirst, getLoop_inside _ _ _ _ _⟩,
      (setContent_ok hok).2⟩

/-- No files, and room for any. -/
def Disk.empty : Disk := ⟨fun _ => none, fun _ => true⟩

theorem set_then_get_abc :
    GetsContent (setThenGet (.interruptedOnce 0) (.always 1) (.interruptedOnce 0) 3 .empty ['f'] 3
        ['a', 'b', 'c', 'd']) 3 ['a', 'b', 'c', 'd'] ↔
      ∀ k, ((Calls.always 1).result k).bytes = 0 → min 3 4 ≤ offered (.always 1) 0 k :=
  set_then_get (.interruptedOnce 0) (.always 1) (.interruptedOnce 0) 3 .empty ['f'] 3
    ['a', 'b', 'c', 'd'] (Calls.interruptedOnce_ne_failed 0)
    (setContent_prints_ok (Calls.interruptedOnce_ne_failed 0) rfl 3 ['a', 'b', 'c', 'd'])

/-- After a `read` of the file that is interrupted the rest is not read. -/
theorem interrupted_get_writes_nothing :
    ¬ ∀ (stdin file stdout : Calls) (disk : Disk) (filePath : List Char) (dataSize : ℕ)
        (content : List Char), (∀ turn, stdin.result turn ≠ .failed) →
        (∀ turn, file.result turn ≠ .failed) → (∀ turn, stdout.result turn ≠ .failed) →
        isValidFilename filePath = true → dataSize ≤ MAX_CONTENT_SIZE →
        (setThenGet stdin file stdout (min dataSize content.length : ℕ) disk filePath dataSize
          content).1.ok = true →
        GetsContent (setThenGet stdin file stdout (min dataSize content.length : ℕ) disk filePath
          dataSize content) dataSize content := by
  intro h
  have halways : ∀ turn, (Calls.always 9).result turn ≠ .failed := fun _ => nofun
  have hok : (setThenGet (.always 9) (.interruptedOnce 9) (.always 9)
      (min 3 ['a', 'b', 'c'].length : ℕ) .empty ['f'] 3 ['a', 'b', 'c']).1.ok = true :=
    setContent_prints_ok halways rfl 3 ['a', 'b', 'c']
  obtain ⟨⟨output, hget, -, hwritten, -⟩, -⟩ := h (.always 9) (.interruptedOnce 9) (.always 9) .empty
    ['f'] 3 ['a', 'b', 'c'] halways (Calls.interruptedOnce_ne_failed 9) halways (by decide)
    (by decide) hok
  rw [setThenGet_get (.interruptedOnce 9) (.always 9) hok] at hget
  obtain rfl := Option.some.inj hget
  have hoffered := (getLoop_written halways 0 0 ['a', 'b', 'c']).mp hwritten 0 rfl
  exact absurd hoffered (by decide)

end FavoriteAssignments.Memory
