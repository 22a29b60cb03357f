import FavoriteAssignments.PlayingWithMemory.Memory

/-! # The command language

The streams that `main` takes for a `get` or a `set`, and the streams of the language that
it should take. They differ where a line does not end where its buffer ends. -/

namespace FavoriteAssignments.Memory

open CStrings Positional

/-! ## The language -/

/-- A file name: ASCII without space, shorter than `PATH_MAX`. -/
structure ValidName (name : List Char) : Prop where
  nonempty : name ≠ []
  plain : ∀ c ∈ name, isascii c = true ∧ isspace c = false
  length_lt : name.length < PATH_MAX

/-- A decimal numeral. -/
structure Numeral (size : List Char) : Prop where
  nonempty : size ≠ []
  digits : ∀ c ∈ size, c.isDigit = true

/-- The stream is a `get` of `name`. -/
structure GetCommand (stream name : List Char) : Prop where
  stream_eq : stream = ['g', 'e', 't', '\n'] ++ (name ++ ['\n'])
  valid : ValidName name

/-- The stream is a `set` of `name`, with `rest` behind the line of the size. -/
structure SetCommand (stream name size rest : List Char) : Prop where
  stream_eq : stream = ['s', 'e', 't', '\n'] ++ (name ++ '\n' :: (size ++ '\n' :: rest))
  valid : ValidName name
  numeral : Numeral size
  size_le : numeralValue size ≤ MAX_CONTENT_SIZE

/-- The outcome that the language gives a stream. -/
def Claimed (stream : List Char) : Outcome → Prop
  | .get filePath => GetCommand stream filePath
  | .set filePath dataBuffer =>
      ∃ size rest, SetCommand stream filePath size rest ∧ dataBuffer = rest.take (numeralValue size)
  | .invalid => (∀ name, ¬ GetCommand stream name) ∧ ∀ name size rest, ¬ SetCommand stream name size rest

/-! ## What the program takes -/

/-- What may stand between the name of the operation and the next line read: a NUL hides
what follows it, and a line that fills the buffer goes on in the next one. -/
inductive Opening : List Char → Prop where
  | plain : Opening ['\n']
  | hidden (junk) : '\n' ∉ junk → junk.length ≤ 4 → Opening ('\x00' :: junk ++ ['\n'])
  | full (junk) : '\n' ∉ junk → junk.length = 5 → Opening ('\x00' :: junk)

/-- A stream that is read as a `get`: `input` is what the line of the name is read from. -/
structure ReadAsGet (stream first input name rest : List Char) : Prop where
  opening : Opening first
  stream_eq : stream = ['g', 'e', 't'] ++ (first ++ input)
  line : LineRead 4095 input name rest
  nonempty : name ≠ []
  valid : isValidFilename (cString name) = true
  ending : rest = [] ∨ ∃ more, rest = '\n' :: more

/-- A stream that is read as a `set`: the size is read from `input'`, the content from
`content`. -/
structure ReadAsSet (stream first input name input' size content : List Char) (dataSize : ℕ) :
    Prop where
  opening : Opening first
  stream_eq : stream = ['s', 'e', 't'] ++ (first ++ input)
  line : LineRead 4095 input name input'
  nonempty : name ≠ []
  size_line : LineRead 19 input' size content
  size_nonempty : size ≠ []
  scanned : sscanf_lu (cString size) = some dataSize
  size_le : dataSize ≤ MAX_CONTENT_SIZE
  valid : isValidFilename (cString name) = true

theorem LineRead.unique {room : ℕ} {input line line' rest rest' : List Char}
    (h : LineRead room input line rest) (h' : LineRead room input line' rest') :
    line = line' ∧ rest = rest' := by
  have heq := h.execution.symm.trans h'.execution
  simpa using heq

/-- The line of the operation, where something follows it. -/
theorem operation_iff (word : List Char) {stream input : List Char} (hlen : word.length = 3) (hnul : '\x00' ∉ word)
    (hnewline : '\n' ∉ word) (hinput : input ≠ []) :
    (∃ line, LineRead 9 stream line input ∧ cString line = word) ↔
      ∃ first, Opening first ∧ stream = word ++ (first ++ input) := by
  constructor
  · rintro ⟨line, hread, hword⟩
    cases hread with
    | newline rest hline hroom =>
        rcases (cString_eq_iff hnul).mp hword with rfl | ⟨junk, rfl⟩
        · exact ⟨_, .plain, rfl⟩
        · simp only [List.mem_append, List.mem_cons, not_or] at hline
          simp only [List.length_append, List.length_cons] at hroom
          exact ⟨_, .hidden junk hline.2.2 (by omega), by simp⟩
    | ended => exact absurd rfl hinput
    | full rest hline hroom =>
        rcases (cString_eq_iff hnul).mp hword with rfl | ⟨junk, rfl⟩
        · omega
        · simp only [List.mem_append, List.mem_cons, not_or] at hline
          simp only [List.length_append, List.length_cons] at hroom
          exact ⟨_, .full junk hline.2.2 (by omega), by simp⟩
  · rintro ⟨first, hopening, rfl⟩
    cases hopening with
    | plain => exact ⟨word, .newline input hnewline (by omega), cString_eq hnul⟩
    | hidden junk hjunk hshort =>
        have hline : '\n' ∉ word ++ '\x00' :: junk := by simp [hnewline, hjunk]
        have hread : LineRead 9 (word ++ '\x00' :: junk ++ '\n' :: input) _ input :=
          .newline input hline (by simp; omega)
        exact ⟨_, by simpa using hread, cString_append_nul hnul junk⟩
    | full junk hjunk hfive =>
        have hline : '\n' ∉ word ++ '\x00' :: junk := by simp [hnewline, hjunk]
        have hread : LineRead 9 (word ++ '\x00' :: junk ++ input) _ input :=
          .full input hline (by simp; omega)
        exact ⟨_, by simpa using hread, cString_append_nul hnul junk⟩

theorem LineRead.readLine {room : ℕ} {input line rest : List Char} (h : LineRead room input line rest) :
    readLine (room + 1) input = (line.length, line, rest) := by
  simp only [Memory.readLine, Nat.add_sub_cancel, h.execution]

theorem exists_lineRead (room : ℕ) (input : List Char) : ∃ line rest, LineRead room input line rest :=
  ⟨_, _, readLineLoop_lineRead room input⟩

theorem LineRead.input_ne_nil {room : ℕ} {input line rest : List Char}
    (h : LineRead room input line rest) (hline : line ≠ []) : input ≠ [] := by
  cases h with
  | newline rest _ _ => simp
  | ended _ _ => exact hline
  | full rest _ _ => simp [hline]

theorem checkForMissingNewlineAfterGet_iff (input : List Char) :
    checkForMissingNewlineAfterGet input = false ↔ input = [] ∨ ∃ more, input = '\n' :: more := by
  cases input with
  | nil => simp [checkForMissingNewlineAfterGet]
  | cons c more => simp [checkForMissingNewlineAfterGet]

theorem ReadAsGet.main_eq {ready : ℕ → ℕ} {stream first input name rest : List Char}
    (h : ReadAsGet stream first input name rest) : main ready stream = .get (cString name) := by
  obtain ⟨line, hline, hop⟩ := (operation_iff ['g', 'e', 't'] rfl (by decide) (by decide)
    (h.line.input_ne_nil h.nonempty)).mpr ⟨first, h.opening, h.stream_eq⟩
  have hlen : line ≠ [] := by
    rintro rfl
    simp [cString] at hop
  have hending := (checkForMissingNewlineAfterGet_iff rest).mpr h.ending
  have hname := h.line.readLine
  simp [main, hline.readLine, hop, hlen, MAX_FILENAME_LEN, hname, h.nonempty, h.valid, hending]

theorem ReadAsSet.main_eq {ready : ℕ → ℕ} {stream first input name input' size content : List Char}
    {dataSize : ℕ} (h : ReadAsSet stream first input name input' size content dataSize) :
    main ready stream = .set (cString name) (content.take dataSize) := by
  obtain ⟨line, hline, hop⟩ := (operation_iff ['s', 'e', 't'] rfl (by decide) (by decide)
    (h.line.input_ne_nil h.nonempty)).mpr ⟨first, h.opening, h.stream_eq⟩
  have hlen : line ≠ [] := by
    rintro rfl
    simp [cString] at hop
  have hname := h.line.readLine
  have hsize := h.size_line.readLine
  simp [main, hline.readLine, hop, hlen, MAX_FILENAME_LEN, hname, h.nonempty, h.valid, hsize,
    h.size_nonempty, h.scanned, not_lt.mpr h.size_le, readLoop_eq]

/-- Every outcome of `main` but the exit comes from one of the two readings. -/
theorem main_cases (ready : ℕ → ℕ) (stream : List Char) :
    main ready stream = .invalid ∨
      (∃ first input name rest, ReadAsGet stream first input name rest) ∨
      ∃ first input name input' size content dataSize,
        ReadAsSet stream first input name input' size content dataSize := by
  by_contra hnone
  simp only [not_or] at hnone
  obtain ⟨hmain, hget, hset⟩ := hnone
  obtain ⟨line, input, hline⟩ := exists_lineRead 9 stream
  obtain ⟨name, rest, hname⟩ := exists_lineRead 4095 input
  obtain ⟨size, content, hsize⟩ := exists_lineRead 19 rest
  apply hmain
  simp only [main, hline.readLine, MAX_FILENAME_LEN, hname.readLine, hsize.readLine]
  split
  · rfl
  · split
    · rename_i hlen hop
      split
      · rfl
      · split
        · rfl
        · rename_i hvalid hending
          simp only [List.length_eq_zero_iff, not_or, Bool.not_eq_true', Bool.not_eq_false] at hvalid
          obtain ⟨first, hopening, heq⟩ := (operation_iff _ rfl (by decide)
            (by decide) (hname.input_ne_nil hvalid.1)).mp ⟨line, hline, hop⟩
          exact absurd ⟨first, input, name, rest, hopening, heq, hname, hvalid.1, hvalid.2,
            (checkForMissingNewlineAfterGet_iff rest).mp (by simpa using hending)⟩ hget
    · split
      · rename_i hlen _ hop
        split
        · rfl
        · split
          · rfl
          · rename_i hnonempty hsizelen
            split
            · rfl
            · split
              · rfl
              · rename_i dataSize hscan hvalid
                simp only [not_or, Bool.not_eq_true', Bool.not_eq_false, not_lt] at hvalid
                simp only [List.length_eq_zero_iff] at hnonempty hsizelen
                obtain ⟨first, hopening, heq⟩ := (operation_iff _ rfl (by decide) (by decide)
                  (hname.input_ne_nil hnonempty)).mp ⟨line, hline, hop⟩
                exact absurd ⟨first, input, name, rest, size, content, dataSize, hopening, heq, hname,
                  hnonempty, hsize, hsizelen, hscan, hvalid.1, hvalid.2⟩ hset
      · rfl

/-! ## Names and sizes -/

theorem ValidName.no_newline {name : List Char} (h : ValidName name) : '\n' ∉ name := fun hmem =>
  absurd (h.plain _ hmem).2 (by decide)

theorem isValidFilename_iff {filename : List Char} :
    isValidFilename filename = true ↔
      (∀ c ∈ filename, isascii c = true ∧ isspace c = false) ∧ filename.length < PATH_MAX := by
  simp [isValidFilename, and_comm]

theorem ValidName.isValidFilename {name : List Char} (h : ValidName name) :
    isValidFilename (cString name) = true :=
  isValidFilename_iff.mpr ⟨fun c hc => h.plain c ((List.takeWhile_sublist _).mem hc),
    (cString_length_le name).trans_lt h.length_lt⟩

theorem Numeral.no_newline {size : List Char} (h : Numeral size) : '\n' ∉ size := fun hmem =>
  absurd (h.digits _ hmem) (by decide)

theorem Numeral.no_nul {size : List Char} (h : Numeral size) : '\x00' ∉ size := fun hmem =>
  absurd (h.digits _ hmem) (by decide)

theorem Numeral.take {size : List Char} (h : Numeral size) {k : ℕ} (hk : k ≠ 0) :
    Numeral (size.take k) :=
  ⟨by simp [h.nonempty, hk], fun c hc => h.digits c (List.mem_of_mem_take hc)⟩

theorem isDigit_spec {c : Char} (h : c.isDigit = true) :
    c.toNat - '0'.toNat < 10 ∧ isspace c = false ∧ c ≠ '-' ∧ c ≠ '+' := by
  have hrange : 48 ≤ c.toNat ∧ c.toNat ≤ 57 := by
    simpa [Char.isDigit, UInt32.le_iff_toNat_le] using h
  have hzero : '0'.toNat = 48 := rfl
  refine ⟨by omega, ?_, ?_, ?_⟩
  · have hne : c ≠ ' ' := by
      rintro rfl
      simp at h
    simp only [isspace, hne, decide_false, Bool.false_or, Bool.and_eq_false_iff,
      decide_eq_false_iff_not]
    omega
  · rintro rfl
    simp at h
  · rintro rfl
    simp at h

theorem numeralValue_lt {size : List Char} (h : ∀ c ∈ size, c.isDigit = true) :
    numeralValue size < 10 ^ size.length := by
  have hdigits : ∀ d ∈ size.map (fun c => c.toNat - '0'.toNat), d < 10 := by
    intro d hd
    obtain ⟨c, hc, rfl⟩ := List.mem_map.mp hd
    exact (isDigit_spec (h c hc)).1
  simpa [numeralValue] using value_lt (by norm_num) hdigits

/-- The first digits of a numeral stand for a number that is not greater. -/
theorem numeralValue_take_le (size : List Char) (k : ℕ) :
    numeralValue (size.take k) ≤ numeralValue size := by
  rw [numeralValue, List.map_take]
  exact value_take_le (by norm_num) k

/-- A numeral that fits the buffer is scanned as its value. -/
theorem Numeral.scanned {size : List Char} (h : Numeral size) (hlen : size.length ≤ 19) :
    sscanf_lu (cString size) = some (numeralValue size) := by
  obtain ⟨c, more, rfl⟩ := List.exists_cons_of_ne_nil h.nonempty
  obtain ⟨-, hspace, hminus, hplus⟩ := isDigit_spec (h.digits c List.mem_cons_self)
  have hdigits : (c :: more).takeWhile Char.isDigit = c :: more :=
    List.takeWhile_eq_self_iff.mpr h.digits
  have hvalue : numeralValue (c :: more) < 2 ^ 64 :=
    calc numeralValue (c :: more) < 10 ^ (c :: more).length := numeralValue_lt h.digits
      _ ≤ 10 ^ 19 := Nat.pow_le_pow_right (by norm_num) hlen
      _ < 2 ^ 64 := by norm_num
  have hstrtoul : strtoul false (c :: more) = numeralValue (c :: more) := by
    rw [strtoul, if_neg (not_le.mpr hvalue)]
    rfl
  rw [cString_eq h.no_nul, sscanf_lu]
  simp [hspace, hminus, hplus, hdigits, hstrtoul]

/-! ## Where the program and the language differ -/

/-- The line of the size is a numeral and ends, and the content read for the digits in the
buffer is the one behind the line. Up to 18 digits this is so of any numeral on a line. -/
def PlainSize (input size content : List Char) (dataSize : ℕ) : Prop :=
  ∃ more rest, input = (size ++ more) ++ '\n' :: rest ∧ Numeral (size ++ more) ∧
    numeralValue (size ++ more) ≤ MAX_CONTENT_SIZE ∧
    content.take dataSize = rest.take (numeralValue (size ++ more))

/-- The streams that the program misreads. -/
inductive Misread (stream : List Char) : Prop where
  /-- A NUL on one of the lines, no end of the line of the name, or more input behind it. -/
  | get {first input name rest} : ReadAsGet stream first input name rest →
      (first ≠ ['\n'] ∨ '\x00' ∈ name ∨ input ≠ name ++ ['\n']) → Misread stream
  /-- A NUL on one of the first two lines, a name that fills its buffer, or an odd size. -/
  | set {first input name input' size content dataSize} :
      ReadAsSet stream first input name input' size content dataSize →
      (first ≠ ['\n'] ∨ '\x00' ∈ name ∨ name.length = 4095 ∨
        ¬ PlainSize input' size content dataSize) → Misread stream
  /-- The end of the line of the name is taken for an empty size. -/
  | long_name {name size rest} : SetCommand stream name size rest → name.length = 4095 →
      Misread stream

theorem LineRead.of_line {room : ℕ} {line : List Char} (hline : '\n' ∉ line)
    (hle : line.length ≤ room) (rest : List Char) :
    LineRead room (line ++ '\n' :: rest) line
      (if line.length < room then rest else '\n' :: rest) := by
  split
  · exact .newline rest hline ‹_›
  · exact .full _ hline (by omega)

theorem Opening.eq_plain {first input more : List Char} (h : Opening first)
    (heq : first ++ input = '\n' :: more) : first = ['\n'] ∧ input = more := by
  cases h with
  | plain => exact ⟨rfl, by simpa using heq⟩
  | hidden junk _ _ => simp at heq
  | full junk _ _ => simp at heq

theorem GetCommand.plain {stream name first input name' rest : List Char} (h : GetCommand stream name)
    (hread : ReadAsGet stream first input name' rest) :
    first = ['\n'] ∧ name' = name ∧ input = name ++ ['\n'] := by
  have heq : first ++ input = '\n' :: (name ++ ['\n']) := by
    simpa [hread.stream_eq] using h.stream_eq
  obtain ⟨hfirst, rfl⟩ := hread.opening.eq_plain heq
  have hle : name.length ≤ 4095 := Nat.le_of_lt_succ h.valid.length_lt
  obtain ⟨hname, -⟩ := hread.line.unique (.of_line h.valid.no_newline hle [])
  exact ⟨hfirst, hname, rfl⟩

theorem GetCommand.readAsGet {stream name : List Char} (h : GetCommand stream name) :
    ∃ rest, ReadAsGet stream ['\n'] (name ++ ['\n']) name rest := by
  refine ⟨_, .plain, by simpa using h.stream_eq,
    .of_line h.valid.no_newline (Nat.le_of_lt_succ h.valid.length_lt) [], h.valid.nonempty,
    h.valid.isValidFilename, ?_⟩
  split
  · exact Or.inl rfl
  · exact Or.inr ⟨[], rfl⟩

theorem SetCommand.plain {stream name digits rest first input name' input' size content : List Char}
    {dataSize : ℕ} (h : SetCommand stream name digits rest)
    (hread : ReadAsSet stream first input name' input' size content dataSize) :
    first = ['\n'] ∧ name' = name ∧ name.length ≠ 4095 ∧ input' = digits ++ '\n' :: rest := by
  have heq : first ++ input = '\n' :: (name ++ '\n' :: (digits ++ '\n' :: rest)) := by
    simpa [hread.stream_eq] using h.stream_eq
  obtain ⟨hfirst, rfl⟩ := hread.opening.eq_plain heq
  have hle : name.length ≤ 4095 := Nat.le_of_lt_succ h.valid.length_lt
  obtain ⟨hname, hinput⟩ := hread.line.unique (.of_line h.valid.no_newline hle _)
  have hshort : name.length ≠ 4095 := by
    intro hfull
    rw [if_neg (by omega)] at hinput
    subst hinput
    have hempty : LineRead 19 ('\n' :: (digits ++ '\n' :: rest)) [] (digits ++ '\n' :: rest) :=
      .newline _ List.not_mem_nil (by norm_num)
    exact hread.size_nonempty (hread.size_line.unique hempty).1
  exact ⟨hfirst, hname, hshort, by rw [hinput, if_pos (by omega)]⟩

/-- A name that does not fill its buffer stands on a line of its own. -/
theorem ReadAsSet.input_eq {stream first input name input' size content : List Char} {dataSize : ℕ}
    (h : ReadAsSet stream first input name input' size content dataSize)
    (hshort : name.length ≠ 4095) : input = name ++ '\n' :: input' := by
  have hinput := h.size_line.input_ne_nil h.size_nonempty
  cases h.line with
  | newline rest _ _ => rfl
  | ended _ _ => exact absurd rfl hinput
  | full rest _ hfull => exact absurd hfull hshort

/-- What is read of a line of digits. -/
theorem Numeral.lineRead {digits : List Char} (h : Numeral digits) (rest : List Char) :
    ∃ content, LineRead 19 (digits ++ '\n' :: rest) (digits.take 19) content := by
  rcases le_or_gt digits.length 19 with hle | hlong
  · rw [List.take_of_length_le hle]
    exact ⟨_, .of_line h.no_newline hle rest⟩
  · have hcut : '\n' ∉ digits.take 19 := fun hmem => h.no_newline (List.mem_of_mem_take hmem)
    have hread : LineRead 19 (digits.take 19 ++ (digits.drop 19 ++ '\n' :: rest)) (digits.take 19)
        (digits.drop 19 ++ '\n' :: rest) := .full _ hcut (by simp; omega)
    rw [← List.append_assoc, List.take_append_drop] at hread
    exact ⟨_, hread⟩

theorem SetCommand.plainSize {stream name digits rest size content : List Char} {dataSize : ℕ}
    (h : SetCommand stream name digits rest)
    (hsize : LineRead 19 (digits ++ '\n' :: rest) size content)
    (hcontent : content.take dataSize = rest.take (numeralValue digits)) :
    PlainSize (digits ++ '\n' :: rest) size content dataSize := by
  obtain ⟨content', hcut⟩ := h.numeral.lineRead rest
  obtain ⟨rfl, -⟩ := hsize.unique hcut
  refine ⟨digits.drop 19, rest, ?_⟩
  rw [List.take_append_drop]
  exact ⟨rfl, h.numeral, h.size_le, hcontent⟩

theorem SetCommand.readAsSet {stream name digits rest : List Char} (h : SetCommand stream name digits rest)
    (hshort : name.length ≠ 4095) :
    ∃ input name' input' size content dataSize,
      ReadAsSet stream ['\n'] input name' input' size content dataSize := by
  obtain ⟨content, hsize⟩ := h.numeral.lineRead rest
  have hlt : name.length < 4096 := h.valid.length_lt
  have hfits := h.numeral.take (k := 19) (by norm_num)
  exact ⟨name ++ '\n' :: (digits ++ '\n' :: rest), name, digits ++ '\n' :: rest, digits.take 19,
    content, numeralValue (digits.take 19), .plain, by simpa using h.stream_eq,
    .newline _ h.valid.no_newline (by omega), h.valid.nonempty, hsize, hfits.nonempty,
    hfits.scanned (List.length_take_le 19 digits), (numeralValue_take_le digits 19).trans h.size_le,
    h.valid.isValidFilename⟩

theorem validName_of_read {name : List Char} (hnonempty : name ≠ []) (hnul : '\x00' ∉ name)
    (hvalid : isValidFilename (cString name) = true) : ValidName name := by
  rw [cString_eq hnul, isValidFilename_iff] at hvalid
  exact ⟨hnonempty, hvalid.1, hvalid.2⟩

theorem not_misread_of_claimed {ready : ℕ → ℕ} {stream : List Char}
    (h : Claimed stream (main ready stream)) : ¬ Misread stream := by
  intro hodd
  cases hodd with
  | get hread hodd =>
      rw [hread.main_eq] at h
      obtain ⟨hfirst, hname, hinput⟩ := GetCommand.plain h hread
      rcases hodd with hodd | hodd | hodd
      · exact hodd hfirst
      · exact nul_not_mem_cString _ (hname ▸ hodd)
      · exact hodd (hname ▸ hinput)
  | set hread hodd =>
      rw [hread.main_eq] at h
      obtain ⟨digits, rest, hset, hcontent⟩ := h
      obtain ⟨hfirst, hname, hshort, rfl⟩ := hset.plain hread
      rcases hodd with hodd | hodd | hodd | hodd
      · exact hodd hfirst
      · exact nul_not_mem_cString _ (hname ▸ hodd)
      · exact hshort (hname ▸ hodd)
      · exact hodd (hset.plainSize hread.size_line hcontent)
  | @long_name name size rest hset hlong =>
      rcases main_cases ready stream with hmain | ⟨_, _, _, _, hread⟩ | ⟨_, _, _, _, _, _, _, hread⟩
      · rw [hmain] at h
        exact h.2 name size rest hset
      · have hget := hread.stream_eq
        simp [hset.stream_eq] at hget
      · exact (hset.plain hread).2.2.1 hlong

theorem claimed_of_not_misread (ready : ℕ → ℕ) {stream : List Char} (h : ¬ Misread stream) :
    Claimed stream (main ready stream) := by
  rcases main_cases ready stream with hmain | ⟨first, input, name, rest, hread⟩ |
    ⟨first, input, name, input', size, content, dataSize, hread⟩
  · rw [hmain]
    refine ⟨fun name hget => ?_, fun name size rest hset => ?_⟩
    · obtain ⟨rest, hread⟩ := hget.readAsGet
      simp [hread.main_eq] at hmain
    · obtain ⟨input, name', input', size', content, dataSize, hread⟩ :=
        hset.readAsSet fun hlong => h (.long_name hset hlong)
      simp [hread.main_eq] at hmain
  · have hplain : ¬ (first ≠ ['\n'] ∨ '\x00' ∈ name ∨ input ≠ name ++ ['\n']) :=
      fun hodd => h (.get hread hodd)
    simp only [not_or, not_not] at hplain
    obtain ⟨rfl, hnul, rfl⟩ := hplain
    rw [hread.main_eq, cString_eq hnul]
    exact ⟨by simpa using hread.stream_eq, validName_of_read hread.nonempty hnul hread.valid⟩
  · have hplain : ¬ (first ≠ ['\n'] ∨ '\x00' ∈ name ∨ name.length = 4095 ∨
        ¬ PlainSize input' size content dataSize) := fun hodd => h (.set hread hodd)
    simp only [not_or, not_not] at hplain
    obtain ⟨rfl, hnul, hshort, more, rest, rfl, hnumeral, hle, hcontent⟩ := hplain
    have hstream := hread.stream_eq
    rw [hread.input_eq hshort] at hstream
    rw [hread.main_eq, cString_eq hnul]
    exact ⟨size ++ more, rest, ⟨by simpa using hstream,
      validName_of_read hread.nonempty hnul hread.valid, hnumeral, hle⟩, hcontent⟩

/-- The program and the language agree on exactly the streams that are not misread. -/
theorem command_language_iff (ready : ℕ → ℕ) (stream : List Char) :
    Claimed stream (main ready stream) ↔ ¬ Misread stream :=
  ⟨not_misread_of_claimed, claimed_of_not_misread ready⟩

/-- The name without the end of its line. -/
theorem missing_newline_accepted :
    main (fun _ => 1) ['g', 'e', 't', '\n', 'f'] = .get ['f'] ∧
      ¬ Claimed ['g', 'e', 't', '\n', 'f'] (main (fun _ => 1) ['g', 'e', 't', '\n', 'f']) := by
  have hmain : main (fun _ => 1) ['g', 'e', 't', '\n', 'f'] = .get ['f'] := by decide
  refine ⟨hmain, fun h => ?_⟩
  rw [hmain] at h
  exact absurd h.stream_eq (by decide)

end FavoriteAssignments.Memory
