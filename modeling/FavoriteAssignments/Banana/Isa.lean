import FavoriteAssignments.Banana.Execute
import Mathlib.Algebra.Group.Int.Defs
import Mathlib.Algebra.Group.Nat.Defs

/-! # The declared instruction set

What the instruction names promise, stated on integers: a register holds a
residue modulo `2 ^ 16`, and each instruction is one assignment. Loads and
stores belong to the memory map and have no entry here. -/

namespace FavoriteAssignments.Banana.Isa

/-- The state a program can observe. -/
structure Arch where
  regs : Fin 32 → BitVec 16
  pc : BitVec 16
  mem : ℕ → BitVec 8
  stdin : List (BitVec 8)
  stdout : List (BitVec 8)
  stderr : List (BitVec 8)
  exited : Bool

inductive Instr where
  | add (rd ra rb : Fin 32)
  | sub (rd ra rb : Fin 32)
  | and (rd ra rb : Fin 32)
  | or (rd ra rb : Fin 32)
  | nor (rd ra rb : Fin 32)
  | slt (rd ra rb : Fin 32)
  | sll (rd rb : Fin 32) (shift : ℕ)
  | srl (rd rb : Fin 32) (shift : ℕ)
  | sra (rd rb : Fin 32) (shift : ℕ)
  | addi (rt ra : Fin 32) (imm : ℤ)
  | beq (ra rb : Fin 32) (imm : ℤ)
  | bne (ra rb : Fin 32) (imm : ℤ)
  | j (imm : ℤ)
  | jal (imm : ℤ)
  | jr (ra : Fin 32)
  | undefined
  deriving DecidableEq

/-! ## Decoding -/

/-- The `k` bits of a word above bit `s`. -/
def field (word s k : ℕ) : ℕ := word / 2 ^ s % 2 ^ k

def fieldReg (word s : ℕ) : Fin 32 := Fin.ofNat 32 (field word s 5)

/-- The signed value of the low sixteen bits. -/
def imm (word : ℕ) : ℤ := (field word 0 16 : ℤ).bmod (2 ^ 16)

def decodeFunction (word : ℕ) : Instr :=
  let ra := fieldReg word 21
  let rb := fieldReg word 16
  let rd := fieldReg word 11
  let shift := field word 6 5
  match FunctionCode.ofNat? (field word 0 6) with
  | some .kSUB => .sub rd ra rb
  | some .kSRL => .srl rd rb shift
  | some .kAND => .and rd ra rb
  | some .kNOR => .nor rd ra rb
  | some .kSRA => .sra rd rb shift
  | some .kSLL => .sll rd rb shift
  | some .kJR => .jr ra
  | some .kOR => .or rd ra rb
  | some .kSLT => .slt rd ra rb
  | some .kADD => .add rd ra rb
  | none => .undefined

/-- `none` exactly for the four loads and stores. -/
def decode (word : ℕ) : Option Instr :=
  match OpCode.ofNat? (field word 26 6) with
  | some .kFUNC => some (decodeFunction word)
  | some .kBEQ => some (.beq (fieldReg word 21) (fieldReg word 16) (imm word))
  | some .kBNE => some (.bne (fieldReg word 21) (fieldReg word 16) (imm word))
  | some .kJAL => some (.jal (imm word))
  | some .kJ => some (.j (imm word))
  | some .kADDI => some (.addi (fieldReg word 16) (fieldReg word 21) (imm word))
  | some .kSB | some .kLBU | some .kLW | some .kSW => none
  | none => some .undefined

/-! ## Execution -/

namespace Arch

def write (s : Arch) (r : Fin 32) (v : BitVec 16) : Arch :=
  { s with regs := Function.update s.regs r v }

def goto (s : Arch) (target : ℤ) : Arch :=
  { s with pc := BitVec.ofInt 16 target }

def next (s : Arch) : Arch := s.goto (s.pc.toNat + 4)

end Arch

/-- One assignment to a named register or to the program counter. -/
def exec (i : Instr) (s : Arch) : Arch :=
  match i with
  | .add rd ra rb =>
      (s.write rd (BitVec.ofInt 16 ((s.regs ra).toInt + (s.regs rb).toInt))).next
  | .sub rd ra rb =>
      (s.write rd (BitVec.ofInt 16 ((s.regs ra).toInt - (s.regs rb).toInt))).next
  | .and rd ra rb => (s.write rd (s.regs ra &&& s.regs rb)).next
  | .or rd ra rb => (s.write rd (s.regs ra ||| s.regs rb)).next
  | .nor rd ra rb => (s.write rd (~~~(s.regs ra ||| s.regs rb))).next
  | .slt rd ra rb =>
      (s.write rd (if (s.regs ra).toInt < (s.regs rb).toInt then 1 else 0)).next
  | .sll rd rb shift =>
      (s.write rd (BitVec.ofInt 16 ((s.regs rb).toInt * 2 ^ shift))).next
  | .srl rd rb shift =>
      (s.write rd (BitVec.ofNat 16 ((s.regs rb).toNat / 2 ^ shift))).next
  | .sra rd rb shift =>
      (s.write rd (BitVec.ofInt 16 ((s.regs rb).toInt / 2 ^ shift))).next
  | .addi rt ra imm => (s.write rt (BitVec.ofInt 16 ((s.regs ra).toInt + imm))).next
  | .beq ra rb imm =>
      if s.regs ra = s.regs rb then s.goto (s.pc.toNat + 4 + 4 * imm) else s.next
  | .bne ra rb imm =>
      if s.regs ra ≠ s.regs rb then s.goto (s.pc.toNat + 4 + 4 * imm) else s.next
  | .j imm => s.goto (4 * imm)
  | .jal imm => (s.write 31 (BitVec.ofInt 16 (s.pc.toNat + 4))).goto (4 * imm)
  | .jr ra => { s with pc := s.regs ra }
  | .undefined => s.next

end FavoriteAssignments.Banana.Isa
