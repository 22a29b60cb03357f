import FavoriteAssignments.PlayingWithMemory.Commands
import FavoriteAssignments.PlayingWithMemory.SetThenGet

/-! # Sessions

Runs of the program one after the other on one disk. Whatever the streams are and whatever
becomes of the calls, each name is a register of its own; commands of the language whose calls
are not disturbed act on the disk as on a store of named contents. Two names never stand for
one file: there are no links, and a name is not written in two ways. -/

namespace FavoriteAssignments.Memory

open Schedules CStrings

/-! ## The program -/

/-- What a run reads, and what becomes of its calls: `numWritten` is what the `write` to the
file returns for a count. -/
structure Invocation where
  stream : List Char
  ready : ℕ → ℕ
  file : Calls
  stdout : Calls
  numWritten : ℕ → ℤ

/-- What a run leaves on its two outputs, and its exit status. -/
structure Reply where
  out : List Char
  err : List Char
  status : ℕ
  deriving DecidableEq

def invalidCommand : Reply := ⟨[], "Invalid Command\n".toList, 1⟩

def operationFailed (out : List Char) : Reply := ⟨out, "Operation Failed\n".toList, 1⟩

def printedOK : Reply := ⟨"OK\n".toList, [], 0⟩

/-- `main` with both operations. -/
def run (i : Invocation) (disk : Disk) : Disk × Reply :=
  match main i.ready i.stream with
  | .invalid => (disk, invalidCommand)
  | .get filePath =>
      match executeGetOperation i.file i.stdout disk filePath with
      | none => (disk, invalidCommand)
      | some output =>
          (disk, if output.ok then ⟨output.written, [], 0⟩ else operationFailed output.written)
  | .set filePath dataBuffer =>
      let result := executeSetOperation (i.numWritten dataBuffer.length) disk filePath dataBuffer
      (result.disk, if result.ok then printedOK else operationFailed [])

def session (disk : Disk) : List Invocation → Disk × List Reply
  | [] => (disk, [])
  | i :: is =>
      let first := run i disk
      let rest := session first.1 is
      (rest.1, first.2 :: rest.2)

/-! ## Registers -/

variable {disk : Disk} {i : Invocation} {filePath dataBuffer name : List Char}

theorem run_get (h : main i.ready i.stream = .get filePath) {contents : List Char}
    (hnode : disk.node filePath = some (.file contents)) :
    run i disk = (disk,
      let output := getLoop i.file i.stdout 0 0 contents
      if output.ok then ⟨output.written, [], 0⟩ else operationFailed output.written) := by
  simp only [run, h, executeGetOperation, hnode]

theorem run_set (h : main i.ready i.stream = .set filePath dataBuffer) :
    run i disk =
      let result := executeSetOperation (i.numWritten dataBuffer.length) disk filePath dataBuffer
      (result.disk, if result.ok then printedOK else operationFailed []) := by
  simp only [run, h]

theorem openWrite_node {opened : Disk} (h : disk.openWrite filePath = some opened)
    (hne : name ≠ filePath) : opened.node name = disk.node name := by
  unfold Disk.openWrite at h
  split at h
  · cases h
  · obtain rfl := Option.some.inj h
    exact Function.update_of_ne hne _ _
  · split at h
    · obtain rfl := Option.some.inj h
      exact Function.update_of_ne hne _ _
    · cases h

/-- A `set` leaves every other name as it was. -/
theorem executeSetOperation_node (numWritten : ℤ) (hne : name ≠ filePath) :
    (executeSetOperation numWritten disk filePath dataBuffer).disk.node name =
      disk.node name := by
  unfold executeSetOperation
  cases hopen : disk.openWrite filePath with
  | none => rfl
  | some opened =>
      rw [← openWrite_node hopen hne]
      exact Function.update_of_ne hne _ _

/-- Only a `set` of its name changes what a name stands for. -/
theorem run_node (h : ∀ dataBuffer, main i.ready i.stream ≠ .set name dataBuffer) :
    (run i disk).1.node name = disk.node name := by
  unfold run
  split
  · rfl
  · split <;> rfl
  · next filePath dataBuffer hmain =>
      refine executeSetOperation_node _ ?_
      rintro rfl
      exact h dataBuffer hmain

theorem session_node {is : List Invocation}
    (h : ∀ i ∈ is, ∀ dataBuffer, main i.ready i.stream ≠ .set name dataBuffer) :
    (session disk is).1.node name = disk.node name := by
  induction is generalizing disk with
  | nil => rfl
  | cons i is ih =>
      obtain ⟨hi, his⟩ := List.forall_mem_cons.mp h
      rw [session, ih his, run_node hi]

theorem session_append (front back : List Invocation) :
    session disk (front ++ back) = ((session (session disk front).1 back).1,
      (session disk front).2 ++ (session (session disk front).1 back).2) := by
  induction front generalizing disk with
  | nil => rfl
  | cons i front ih => simp only [List.cons_append, session, ih]

/-- A `set` that exits with `0` has stored its content. -/
theorem run_set_node (h : main i.ready i.stream = .set name dataBuffer)
    (hok : (run i disk).2.status = 0) :
    (run i disk).1.node name = some (.file dataBuffer) := by
  rw [run_set h] at hok ⊢
  dsimp only at hok ⊢
  cases hresult :
      (executeSetOperation (i.numWritten dataBuffer.length) disk name dataBuffer).ok with
  | false =>
      rw [hresult] at hok
      cases hok
  | true => exact (executeSetOperation_ok hresult).1

/-- The `get` of a name prints what the last `set` of the name stored, whatever was run before
it and between the two, if its `read`s of the file are ready for all of it before an error. -/
theorem last_set_wins (disk : Disk) (before between : List Invocation) (set get : Invocation)
    (name dataBuffer : List Char) (hset : main set.ready set.stream = .set name dataBuffer)
    (hok : (run set (session disk before).1).2.status = 0)
    (hbetween : ∀ i ∈ between, ∀ other, main i.ready i.stream ≠ .set name other)
    (hget : main get.ready get.stream = .get name)
    (hstdout : ∀ turn, get.stdout.result turn ≠ .failed) :
    (session disk (before ++ set :: between ++ [get])).2.getLast? = some ⟨dataBuffer, [], 0⟩ ↔
      ∀ k, (get.file.result k).bytes = 0 → dataBuffer.length ≤ offered get.file 0 k := by
  have hnode : (session disk (before ++ set :: between)).1.node name =
      some (.file dataBuffer) := by
    rw [session_append, session, session_node hbetween]
    exact run_set_node hset hok
  have hwritten : (getLoop get.file get.stdout 0 0 dataBuffer).written = dataBuffer ↔ _ :=
    getLoop_written hstdout 0 0 dataBuffer
  simp only [Nat.zero_add] at hwritten
  rw [← hwritten, session_append, session, session]
  simp only [run_get hget hnode, getLoop_ok hstdout, if_true, List.getLast?_append,
    List.getLast?_singleton, Option.some_or, Option.some.injEq, Reply.mk.injEq, and_true]

/-- A run without disturbances. -/
def Invocation.plain (stream : List Char) : Invocation :=
  ⟨stream, fun _ => 0, .always 0, .always 0, fun count => count⟩

/-- Between the `set` and the `get` a stream is rejected. -/
theorem last_set_wins_ab :
    (session .empty ([] ++ .plain ['s', 'e', 't', '\n', 'f', '\n', '2', '\n', 'a', 'b'] ::
        [.plain ['p', 'u', 't', '\n']] ++ [.plain ['g', 'e', 't', '\n', 'f', '\n']])).2.getLast? =
      some ⟨['a', 'b'], [], 0⟩ := by
  have hset : main (fun _ => 0) ['s', 'e', 't', '\n', 'f', '\n', '2', '\n', 'a', 'b'] =
      .set ['f'] ['a', 'b'] := by
    have hscan : sscanf_lu (cString ['2']) = some 2 := by decide
    simp [main, readLine, readLineLoop, readLoop_eq, hscan, MAX_FILENAME_LEN, MAX_CONTENT_SIZE]
    decide
  have hput : main (fun _ => 0) ['p', 'u', 't', '\n'] = .invalid := by decide
  have hget : main (fun _ => 0) ['g', 'e', 't', '\n', 'f', '\n'] = .get ['f'] := by decide
  refine (last_set_wins .empty [] [.plain ['p', 'u', 't', '\n']] _ _ ['f'] ['a', 'b'] hset ?_ ?_
    hget ?_).mpr fun k hready => ?_
  · have hrun : run (.plain ['s', 'e', 't', '\n', 'f', '\n', '2', '\n', 'a', 'b']) .empty = _ :=
      run_set hset
    rw [session, hrun]
    rfl
  · intro i hi other
    rw [List.mem_singleton.mp hi]
    simp [Invocation.plain, hput]
  · intro turn
    simp [Invocation.plain, Calls.always]
  · simp [Invocation.plain, Calls.always, Result.bytes] at hready

/-! ## The store -/

/-- A command of the language. -/
inductive Command where
  | get (name : List Char)
  | set (name digits rest : List Char)

def Command.stream : Command → List Char
  | .get name => ['g', 'e', 't', '\n'] ++ (name ++ ['\n'])
  | .set name digits rest => ['s', 'e', 't', '\n'] ++ (name ++ '\n' :: (digits ++ '\n' :: rest))

/-- The lines of the command have room in their buffers, and no NUL hides a part of the name. -/
def Command.Fits : Command → Prop
  | .get name => ValidName name ∧ '\x00' ∉ name
  | .set name digits _ => ValidName name ∧ '\x00' ∉ name ∧ name.length < 4095 ∧ Numeral digits ∧
      digits.length < 19 ∧ numeralValue digits ≤ MAX_CONTENT_SIZE

/-- What a command does to a store of named contents. -/
def Command.apply (disk : Disk) : Command → Disk × Reply
  | .get name =>
      match disk.node name with
      | some (.file contents) => (disk, ⟨contents, [], 0⟩)
      | _ => (disk, invalidCommand)
  | .set name digits rest =>
      if disk.node name = some .dir ∨ (disk.node name = none ∧ disk.mayCreate name = false) then
        (disk, operationFailed [])
      else (disk.store name (rest.take (numeralValue digits)), printedOK)

def Command.applyAll (disk : Disk) : List Command → Disk × List Reply
  | [] => (disk, [])
  | c :: cs =>
      let first := c.apply disk
      let rest := applyAll first.1 cs
      (rest.1, first.2 :: rest.2)

theorem Command.main_get (ready : ℕ → ℕ) (h : (Command.get name).Fits) :
    main ready (Command.get name).stream = .get name := by
  obtain ⟨hvalid, hnul⟩ := h
  have hcommand : GetCommand (Command.get name).stream name := ⟨rfl, hvalid⟩
  obtain ⟨rest, hread⟩ := hcommand.readAsGet
  rw [hread.main_eq, cString_eq hnul]

theorem Command.main_set (ready : ℕ → ℕ) {digits rest : List Char}
    (h : (Command.set name digits rest).Fits) :
    main ready (Command.set name digits rest).stream =
      .set name (rest.take (numeralValue digits)) := by
  obtain ⟨hvalid, hnul, hlength, hnumeral, hdigits, hsize⟩ := h
  have hread : ReadAsSet (Command.set name digits rest).stream ['\n']
      (name ++ '\n' :: (digits ++ '\n' :: rest)) name (digits ++ '\n' :: rest) digits rest
      (numeralValue digits) :=
    ⟨.plain, rfl, .newline _ hvalid.no_newline hlength, hvalid.nonempty,
      .newline _ hnumeral.no_newline hdigits, hnumeral.nonempty, hnumeral.scanned hdigits.le, hsize,
      hvalid.isValidFilename⟩
  rw [hread.main_eq, cString_eq hnul]

/-- No call of a run is disturbed for good, and the `write` to the file transfers its whole
count. -/
structure Invocation.Undisturbed (i : Invocation) : Prop where
  file : ∀ turn, ∃ n, i.file.result turn = .moved n
  stdout : ∀ turn, i.stdout.result turn ≠ .failed
  whole : ∀ count : ℕ, i.numWritten count = count

/-- A run on the stream of a command is the command. -/
theorem run_command {c : Command} (hfits : c.Fits) (hstream : i.stream = c.stream)
    (hcalls : i.Undisturbed) : run i disk = c.apply disk := by
  cases c with
  | get name =>
      have hmain : main i.ready i.stream = .get name := by
        rw [hstream, Command.main_get i.ready hfits]
      cases hnode : disk.node name with
      | none => simp only [run, hmain, executeGetOperation, hnode, Command.apply]
      | some node =>
          cases node with
          | dir => simp only [run, hmain, executeGetOperation, hnode, Command.apply]
          | file contents =>
              have hwritten : (getLoop i.file i.stdout 0 0 contents).written = contents := by
                refine (getLoop_written hcalls.stdout 0 0 contents).mpr ?_
                intro k hk
                obtain ⟨n, hn⟩ := hcalls.file (0 + k)
                rw [hn, Result.bytes] at hk
                cases hk
              rw [run_get hmain hnode]
              simp only [getLoop_ok hcalls.stdout, hwritten, if_true, Command.apply, hnode]
  | set name digits rest =>
      have hmain : main i.ready i.stream = .set name (rest.take (numeralValue digits)) := by
        rw [hstream, Command.main_set i.ready hfits]
      rw [run_set hmain, Command.apply]
      generalize rest.take (numeralValue digits) = dataBuffer
      have hstore : ∀ contents : List Char, (disk.store name contents).store name dataBuffer =
          disk.store name dataBuffer := by
        intro contents
        simp only [Disk.store, Function.update_idem]
      unfold executeSetOperation Disk.openWrite
      cases hnode : disk.node name with
      | none =>
          cases hcreate : disk.mayCreate name with
          | false => simp
          | true => simp [hcalls.whole, hstore]
      | some node =>
          cases node with
          | dir => simp
          | file contents => simp [hcalls.whole, hstore]

/-- A session of commands whose calls are not disturbed leaves the store and gives the replies
that the commands ask for. -/
theorem session_commands (disk : Disk) (commands : List (Command × Invocation))
    (hfits : ∀ c ∈ commands, c.1.Fits) (hstream : ∀ c ∈ commands, c.2.stream = c.1.stream)
    (hcalls : ∀ c ∈ commands, c.2.Undisturbed) :
    session disk (commands.map Prod.snd) = Command.applyAll disk (commands.map Prod.fst) := by
  induction commands generalizing disk with
  | nil => rfl
  | cons c commands ih =>
      rw [List.forall_mem_cons] at hfits hstream hcalls
      simp only [List.map_cons, session, Command.applyAll,
        run_command hfits.1 hstream.1 hcalls.1, ih _ hfits.2 hstream.2 hcalls.2]

theorem session_commands_ab :
    session .empty ([Command.set ['f'] ['1'] ['a', 'b'], .get ['f']].map fun c =>
        Invocation.plain c.stream) =
      Command.applyAll .empty [.set ['f'] ['1'] ['a', 'b'], .get ['f']] := by
  have hname : ValidName ['f'] :=
    ⟨by simp, by simp only [List.forall_mem_singleton]; decide, by decide⟩
  have hdigits : Numeral ['1'] := ⟨by simp, by simp only [List.forall_mem_singleton]; decide⟩
  have hplain : ∀ stream, (Invocation.plain stream).Undisturbed := fun stream =>
    ⟨fun _ => ⟨0, rfl⟩, fun turn => by simp [Invocation.plain, Calls.always], fun _ => rfl⟩
  refine session_commands .empty ([Command.set ['f'] ['1'] ['a', 'b'], .get ['f']].map fun c =>
    (c, .plain c.stream)) ?_ ?_ ?_
  · simp only [List.map_cons, List.map_nil, List.forall_mem_cons]
    exact ⟨⟨hname, by decide, by decide, hdigits, by decide, by decide⟩, ⟨hname, by decide⟩,
      List.forall_mem_nil _⟩
  · simp [Invocation.plain]
  · simp [hplain]

end FavoriteAssignments.Memory
