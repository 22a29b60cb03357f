import FavoriteAssignments.Banana.Conformance
import Mathlib.Data.List.Infix
import Mathlib.Data.Nat.Notation

/-! # The disassembler

`PrintInstruction` writes what the latches hold. The operation it names is compared with the
one that the dispatch tables select. -/

namespace FavoriteAssignments.Banana

open Isa

/-! ## Output -/

/-- One operand of `<<`. -/
inductive Item where
  | str (s : String)
  | num (x : BitVec 16)
  | dec
  | hex

/-- A stream, with the base that the manipulators have set for its integers. -/
structure Ostream where
  text : String
  hex : Bool

namespace Ostream

/-- In base 16 an `int16_t` is printed as its sixteen bits, without a sign. -/
def put (cout : Ostream) : Item → Ostream
  | .str s => { cout with text := cout.text ++ s }
  | .num x =>
      { cout with
        text := cout.text ++
          if cout.hex then String.ofList (Nat.toDigits 16 x.toNat) else toString x.toInt }
  | .dec => { cout with hex := false }
  | .hex => { cout with hex := true }

def print (cout : Ostream) (items : List Item) : Ostream := items.foldl put cout

end Ostream

namespace BananaCpu

variable (c : BananaCpu)

/-- The outer `switch`; `kFUNC` prints nothing yet. -/
def printOpCode : List Item :=
  match OpCode.ofNat? c.op_code_.toNat with
  | some .kFUNC => []
  | some .kBEQ =>
      [.str "Opcode: Branch On Equal\t\t\t\t", .str "if Register[", .num c.reg_a_,
        .str "] == Register[", .num c.reg_b_, .str "]\t PC = PC+4 + 4*", .dec,
        .num c.immediate_, .str "\n"]
  | some .kSB =>
      [.str "Opcode: Store Byte\t\t\t\t", .str "Ram[Reg[", .num c.reg_a_, .str "] + "] ++
        (if c.immediate_ = 0 then [.str "0x0000]"]
        else [.str "0x", .hex, .num c.immediate_]) ++
        [.str "] = Reg[", .num c.reg_b_, .str "]\n"]
  | some .kJAL =>
      [.str "Opcode: Jump And Link\t\t\t\t", .str "Reg[31] = PC+4;\tPC=4*Immediate\n"]
  | some .kLBU =>
      [.str "Opcode: Load Byte Unsigned\t\t\t", .str "Ram[", .num c.reg_b_,
        .str "] = Ram[Reg[", .num c.reg_a_, .str "] + ", .dec, .num c.immediate_, .str "]\n"]
  | some .kJ => [.str "Opcode: Jump\t\t\t\tPC=4*", .num c.immediate_, .str "\n"]
  | some .kADDI =>
      [.str "Opcode: Add Immediate:\t\t\t\t", .str "Reg[", .num c.reg_b_, .str "] = Reg[",
        .num c.reg_a_, .str "] + ", .dec, .num c.immediate_, .str "\n"]
  | some .kBNE =>
      [.str "Opcode: Branch On Not Equal\t\t\t", .str "if Reg[", .num c.reg_a_,
        .str "] != Reg[", .num c.reg_b_, .str "]\t PC = PC+4 + 4*", .dec, .num c.immediate_,
        .str "\n"]
  | some .kLW =>
      [.str "Opcode: Load Word\t\t\t\tReg[", .num c.reg_b_, .str "] = Ram[Reg[",
        .num c.reg_a_, .str "] + ", .dec, .num c.immediate_, .str "]\n"]
  | some .kSW =>
      [.str "Opcode: Store Word\t\t\t\tRam[Reg[", .num c.reg_a_, .str "] + ", .dec,
        .num c.immediate_, .str "] = Reg[", .num c.reg_b_, .str "]\n"]
  | none => [.str "Unknown opcode\n"]

/-- The inner `switch`, with the cases of a function code. Its selector is `op_code_`. -/
def printFunction : List Item :=
  match FunctionCode.ofNat? c.op_code_.toNat with
  | some .kSUB =>
      [.str "Function: 0, Subtract\t\t\t\t", .str "Reg[", .num c.reg_c_, .str "] = Reg[",
        .num c.reg_a_, .str "] - Reg[", .num c.reg_b_, .str "]\n"]
  | some .kSRL =>
      [.str "Function: 13, Shift Right Logical\t\t", .str "Reg[", .num c.reg_c_,
        .str "] = (unsigned)Reg[", .num c.reg_b_, .str "] value >> shifted right ",
        .num c.shift_value_, .str "\n"]
  | some .kAND =>
      [.str "Function: 19, And\t\t\t\tReg[", .num c.reg_c_, .str "] = Reg[", .num c.reg_a_,
        .str "] & Reg[", .num c.reg_b_, .str "]\n"]
  | some .kNOR =>
      [.str "Function: 21, Nor\t\t\t\tReg[", .num c.reg_c_, .str "] = ~(Reg[", .num c.reg_a_,
        .str "] | Reg[", .num c.reg_b_, .str "])\n"]
  | some .kSRA =>
      [.str "Function: 25, Shift Right Arithmetic\t\tReg[", .num c.reg_c_, .str "] = Reg[",
        .num c.reg_b_, .str "] shifted right", .num c.shift_value_, .str "\n"]
  | some .kSLL =>
      [.str "Function: 30, Shift Left Logical\t\tReg[", .num c.reg_c_, .str "] = Reg[",
        .num c.reg_b_, .str "] shifted left", .num c.shift_value_, .str "\n"]
  | some .kJR =>
      [.str "Function: 40, Jump Register\t\tPC = Reg[", .num c.reg_a_, .str "]\n"]
  | some .kOR =>
      [.str "Function: 50, Or\t\t\t\tReg[", .num c.reg_c_, .str "] = Reg[", .num c.reg_a_,
        .str "] | Reg[", .num c.reg_b_, .str "]\n"]
  | some .kSLT =>
      [.str "Function: 57, Set Less Than\t\tReg[", .num c.reg_c_, .str "] = Reg[",
        .num c.reg_a_, .str "] + Reg[", .num c.reg_b_, .str "]\n"]
  | some .kADD =>
      [.str "Function: 60, Add\t\t\t\tReg[", .num c.reg_c_, .str "] = Reg[", .num c.reg_a_,
        .str "] + Reg[", .num c.reg_b_, .str "]\n"]
  | none => [.str "Unknown function code", .str "\n"]

def PrintInstruction (cout : Ostream) : Ostream :=
  let cout := cout.print c.printOpCode
  if OpCode.ofNat? c.op_code_.toNat = some .kFUNC then cout.print c.printFunction else cout

end BananaCpu

/-! ## Operations -/

/-- The entries of the two dispatch tables other than `NOP` and `ExecuteRType`. -/
inductive Operation where
  | BEQ | SB | JAL | LBU | J | ADDI | BNE | LW | SW
  | SUB | SRL | AND | NOR | SRA | SLL | JR | OR | SLT | ADD
  deriving DecidableEq, Repr

namespace Operation

/-- The member function that an entry points to. -/
def perform : Operation → Machine → Machine
  | BEQ => Machine.onCpu BananaCpu.BEQ
  | SB => Machine.SB
  | JAL => Machine.onCpu BananaCpu.JAL
  | LBU => Machine.LBU
  | J => Machine.onCpu BananaCpu.J
  | ADDI => Machine.onCpu BananaCpu.ADDI
  | BNE => Machine.onCpu BananaCpu.BNE
  | LW => Machine.LW
  | SW => Machine.SW
  | SUB => Machine.onCpu BananaCpu.SUB
  | SRL => Machine.onCpu BananaCpu.SRL
  | AND => Machine.onCpu BananaCpu.AND
  | NOR => Machine.onCpu BananaCpu.NOR
  | SRA => Machine.onCpu BananaCpu.SRA
  | SLL => Machine.onCpu BananaCpu.SLL
  | JR => Machine.onCpu BananaCpu.JR
  | OR => Machine.onCpu BananaCpu.OR
  | SLT => Machine.onCpu BananaCpu.SLT
  | ADD => Machine.onCpu BananaCpu.ADD

def ofFunction : FunctionCode → Operation
  | .kSUB => SUB
  | .kSRL => SRL
  | .kAND => AND
  | .kNOR => NOR
  | .kSRA => SRA
  | .kSLL => SLL
  | .kJR => JR
  | .kOR => OR
  | .kSLT => SLT
  | .kADD => ADD

/-- The operation of a word, `none` where both tables lead to `NOP`. -/
def ofWord? (w : BitVec 32) : Option Operation :=
  match OpCode.ofNat? (field w.toNat 26 6) with
  | some .kFUNC => (FunctionCode.ofNat? (field w.toNat 0 6)).map ofFunction
  | some .kBEQ => some BEQ
  | some .kSB => some SB
  | some .kJAL => some JAL
  | some .kLBU => some LBU
  | some .kJ => some J
  | some .kADDI => some ADDI
  | some .kBNE => some BNE
  | some .kLW => some LW
  | some .kSW => some SW
  | none => none

/-- The words the disassembler has for an operation. -/
def title : Operation → String
  | BEQ => "Opcode: Branch On Equal\t"
  | SB => "Opcode: Store Byte\t"
  | JAL => "Opcode: Jump And Link\t"
  | LBU => "Opcode: Load Byte Unsigned\t"
  | J => "Opcode: Jump\t"
  | ADDI => "Opcode: Add Immediate:\t"
  | BNE => "Opcode: Branch On Not Equal\t"
  | LW => "Opcode: Load Word\t"
  | SW => "Opcode: Store Word\t"
  | SUB => "Function: 0, Subtract\t"
  | SRL => "Function: 13, Shift Right Logical\t"
  | AND => "Function: 19, And\t"
  | NOR => "Function: 21, Nor\t"
  | SRA => "Function: 25, Shift Right Arithmetic\t"
  | SLL => "Function: 30, Shift Left Logical\t"
  | JR => "Function: 40, Jump Register\t"
  | OR => "Function: 50, Or\t"
  | SLT => "Function: 57, Set Less Than\t"
  | ADD => "Function: 60, Add\t"

end Operation

/-- What the executor does with a word, `NOP` where it has no operation. -/
theorem executeInstruction_ofWord (m : Machine) (w : BitVec 32)
    (hpc : kSLUGFileAddress ≤ m.CPU_.PC_.toNat) :
    m.ExecuteInstruction w =
      match Operation.ofWord? w with
      | some o => o.perform (m.decoded w)
      | none => (m.decoded w).onCpu BananaCpu.NOP := by
  rw [executeInstruction_eq m w hpc, Machine.op_table_, Operation.ofWord?]
  cases OpCode.ofNat? (field w.toNat 26 6) with
  | none => rfl
  | some op =>
      cases op with
      | kFUNC =>
          simp only [executeRType_eq, Machine.function_table_]
          cases FunctionCode.ofNat? (field w.toNat 0 6) with
          | none => rfl
          | some f => cases f <;> rfl
      | _ => rfl

/-! ## What the text names -/

/-- The printed text begins with the words for the operation. -/
def Names (text : String) (o : Operation) : Prop := o.title.toList <+: text.toList

/-- The printed text is one of the two that begin with `Unknown`. -/
def SaysUnknown (text : String) : Prop := "Unknown".toList <+: text.toList

def Operation.all : List Operation :=
  [.BEQ, .SB, .JAL, .LBU, .J, .ADDI, .BNE, .LW, .SW, .SUB, .SRL, .AND, .NOR, .SRA, .SLL, .JR,
    .OR, .SLT, .ADD]

theorem Operation.mem_all (o : Operation) : o ∈ all := by
  cases o <;> decide

/-- No operation's words begin another's, or begin as the unknown ones do. -/
theorem titles_apart : ∀ o ∈ Operation.all,
    (∀ o' ∈ Operation.all, o.title.toList <+: o'.title.toList → o = o') ∧
      ¬ o.title.toList <+: "Unknown".toList ∧ ¬ "Unknown".toList <+: o.title.toList := by
  decide +kernel

theorem Ostream.print_text (cout : Ostream) (items : List Item) :
    ∃ rest, (cout.print items).text.toList = cout.text.toList ++ rest := by
  induction items generalizing cout with
  | nil => exact ⟨[], by simp [print]⟩
  | cons item items ih =>
      obtain ⟨rest, hrest⟩ := ih (cout.put item)
      have hput : ∃ more, (cout.put item).text.toList = cout.text.toList ++ more := by
        cases item with
        | str s => exact ⟨_, String.toList_append⟩
        | num x => exact ⟨_, String.toList_append⟩
        | dec => exact ⟨[], (List.append_nil _).symm⟩
        | hex => exact ⟨[], (List.append_nil _).symm⟩
      obtain ⟨more, hmore⟩ := hput
      exact ⟨more ++ rest, by rw [print, List.foldl_cons, ← print, hrest, hmore, List.append_assoc]⟩

/-- A text that names an operation names no other and does not say `Unknown`. -/
theorem names_iff {text : String} {o : Operation} (h : Names text o) :
    (∀ o', Names text o' ↔ o' = o) ∧ ¬ SaysUnknown text := by
  refine ⟨fun o' => ⟨fun h' => ?_, fun heq => heq ▸ h⟩, fun h' => ?_⟩
  · rcases List.prefix_or_prefix_of_prefix h h' with hp | hp
    · exact ((titles_apart o o.mem_all).1 o' o'.mem_all hp).symm
    · exact (titles_apart o' o'.mem_all).1 o o.mem_all hp
  · rcases List.prefix_or_prefix_of_prefix h h' with hp | hp
    · exact (titles_apart o o.mem_all).2.1 hp
    · exact (titles_apart o o.mem_all).2.2 hp

theorem not_names_of_unknown {text : String} (h : SaysUnknown text) (o : Operation) :
    ¬ Names text o :=
  fun ho => (names_iff ho).2 h

/-! ## Agreement with the executor -/

/-- What `PrintInstruction` writes for a word, on a stream left in either base. -/
def printed (m : Machine) (w : BitVec 32) (hex : Bool) : String :=
  ((m.decoded w).CPU_.PrintInstruction ⟨"", hex⟩).text

/-- The operation whose words are printed: both switches look at the operation code. -/
def Operation.printed? (w : BitVec 32) : Option Operation :=
  match OpCode.ofNat? (field w.toNat 26 6) with
  | some .kFUNC => (FunctionCode.ofNat? (field w.toNat 26 6)).map ofFunction
  | _ => ofWord? w

theorem OpCode.ofNat?_eq_kFUNC {n : ℕ} : OpCode.ofNat? n = some .kFUNC ↔ n = 0 := by
  unfold OpCode.ofNat?
  split <;> simp_all

/-- A text that starts with a literal starts with what the literal starts with. -/
theorem prefix_of_print {hex : Bool} {s title : String} {items : List Item}
    (h : title.toList <+: s.toList) :
    title.toList <+: ((⟨"", hex⟩ : Ostream).print (.str s :: items)).text.toList := by
  obtain ⟨rest, hrest⟩ := Ostream.print_text ((⟨"", hex⟩ : Ostream).put (.str s)) items
  rw [Ostream.print, List.foldl_cons, ← Ostream.print, hrest]
  refine (h.trans ?_).trans (List.prefix_append _ _)
  simp [Ostream.put]

theorem printed_spec (m : Machine) (w : BitVec 32) (hex : Bool) :
    match Operation.printed? w with
    | some o => Names (printed m w hex) o
    | none => SaysUnknown (printed m w hex) := by
  have hop := decoded_op_code_ m w
  unfold printed BananaCpu.PrintInstruction BananaCpu.printOpCode BananaCpu.printFunction
    Operation.printed? Operation.ofWord?
  simp only [hop]
  cases hcode : OpCode.ofNat? (field w.toNat 26 6) with
  | none => exact prefix_of_print (by decide)
  | some op =>
      cases op with
      | kFUNC =>
          rw [OpCode.ofNat?_eq_kFUNC.mp hcode]
          exact prefix_of_print (by decide)
      | _ => exact prefix_of_print (by decide)

/-- The text tells which operation is meant. -/
theorem names_printed_iff (m : Machine) (w : BitVec 32) (hex : Bool) :
    (∀ o, Names (printed m w hex) o ↔ Operation.printed? w = some o) ∧
      (SaysUnknown (printed m w hex) ↔ Operation.printed? w = none) := by
  have hspec := printed_spec m w hex
  cases hw : Operation.printed? w with
  | none =>
      simp only [hw] at hspec
      exact ⟨fun o => by simpa using not_names_of_unknown hspec o, by simpa using hspec⟩
  | some o =>
      simp only [hw] at hspec
      obtain ⟨hnames, hknown⟩ := names_iff hspec
      exact ⟨fun o' => by simpa [eq_comm] using hnames o', by simpa using hknown⟩

/-- `Subtract` is printed for every function code. -/
theorem printed?_eq_ofWord?_iff (w : BitVec 32) :
    Operation.printed? w = Operation.ofWord? w ↔ field w.toNat 26 6 ≠ 0 ∨ field w.toNat 0 6 = 0 := by
  by_cases hop : field w.toNat 26 6 = 0
  · have hcodes : ∀ f < 64, (FunctionCode.ofNat? f).map Operation.ofFunction =
        some Operation.SUB ↔ f = 0 := by decide
    have hf : field w.toNat 0 6 < 64 := Nat.mod_lt _ (by decide)
    have hw : Operation.ofWord? w =
        (FunctionCode.ofNat? (field w.toNat 0 6)).map Operation.ofFunction := by
      rw [Operation.ofWord?, hop]
      rfl
    have hprinted : Operation.printed? w = some .SUB := by
      rw [Operation.printed?, hop]
      rfl
    rw [hprinted, hw, eq_comm, hcodes _ hf]
    simp [hop]
  · have hprinted : Operation.printed? w = Operation.ofWord? w := by
      unfold Operation.printed?
      split
      · next hcode => exact absurd (OpCode.ofNat?_eq_kFUNC.mp hcode) hop
      · rfl
    simp [hprinted, hop]

/-- The disassembler names the operation that the executor performs, and says `Unknown`
where it performs `NOP`, for every word but those with operation code 0 and a function code
other than 0. -/
theorem disassembler_agrees_iff (m : Machine) (w : BitVec 32) (hex : Bool)
    (hpc : kSLUGFileAddress ≤ m.CPU_.PC_.toNat) :
    m.ExecuteInstruction w =
        (match Operation.ofWord? w with
        | some o => o.perform (m.decoded w)
        | none => (m.decoded w).onCpu BananaCpu.NOP) ∧
      (((∀ o, Names (printed m w hex) o ↔ Operation.ofWord? w = some o) ∧
          (SaysUnknown (printed m w hex) ↔ Operation.ofWord? w = none)) ↔
        field w.toNat 26 6 ≠ 0 ∨ field w.toNat 0 6 = 0) := by
  refine ⟨executeInstruction_ofWord m w hpc, ?_⟩
  obtain ⟨hnames, hunknown⟩ := names_printed_iff m w hex
  rw [← printed?_eq_ofWord?_iff]
  constructor
  · rintro ⟨hall, hnone⟩
    cases hw : Operation.printed? w with
    | none => exact (hnone.mp (hunknown.mpr hw)).symm
    | some o => exact ((hall o).mp ((hnames o).mpr hw)).symm
  · intro heq
    exact ⟨fun o => heq ▸ hnames o, heq ▸ hunknown⟩

/-- A load word is named. -/
theorem disassembler_agrees_load_word : Names (printed allOnes 0xD4010000 false) .LW :=
  ((disassembler_agrees_iff allOnes 0xD4010000 false (by decide)).2.mpr
    (Or.inl (by decide))).1 .LW |>.mpr (by decide)

/-- `ADD r0, r0, r0` is performed as an addition and printed as a subtraction. -/
theorem add_printed_as_subtract :
    allOnes.ExecuteInstruction 0x0000003C = Operation.ADD.perform (allOnes.decoded 0x0000003C) ∧
      Names (printed allOnes 0x0000003C false) .SUB ∧
      ¬ Names (printed allOnes 0x0000003C false) .ADD := by
  have hnames := (names_printed_iff allOnes 0x0000003C false).1
  refine ⟨executeInstruction_ofWord allOnes 0x0000003C (by decide), ?_, ?_⟩
  · exact (hnames .SUB).mpr (by decide)
  · exact mt (hnames .ADD).mp (by decide)

end FavoriteAssignments.Banana
