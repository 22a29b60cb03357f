import FavoriteAssignments.Banana.Machine

/-! # Decoding and executing one instruction

The bodies of `cpu.cpp`, one definition for each member function. -/

namespace FavoriteAssignments.Banana

/-! ## Instruction codes -/

inductive OpCode where
  | kFUNC | kBEQ | kSB | kJAL | kLBU | kJ | kADDI | kBNE | kLW | kSW
  deriving DecidableEq, Repr

inductive FunctionCode where
  | kSUB | kSRL | kAND | kNOR | kSRA | kSLL | kJR | kOR | kSLT | kADD
  deriving DecidableEq, Repr

/-- The entries of `op_table_` other than `NOP`. -/
def OpCode.ofNat? : ℕ → Option OpCode
  | 0x00 => some .kFUNC
  | 0x02 => some .kBEQ
  | 0x0B => some .kSB
  | 0x18 => some .kJAL
  | 0x19 => some .kLBU
  | 0x25 => some .kJ
  | 0x2E => some .kADDI
  | 0x33 => some .kBNE
  | 0x35 => some .kLW
  | 0x3A => some .kSW
  | _ => none

/-- The entries of `function_table_` other than `NOP`. -/
def FunctionCode.ofNat? : ℕ → Option FunctionCode
  | 0x00 => some .kSUB
  | 0x0D => some .kSRL
  | 0x13 => some .kAND
  | 0x15 => some .kNOR
  | 0x19 => some .kSRA
  | 0x1E => some .kSLL
  | 0x28 => some .kJR
  | 0x32 => some .kOR
  | 0x39 => some .kSLT
  | 0x3C => some .kADD
  | _ => none

/-! ## Register and control-flow instructions -/

namespace BananaCpu

/-- `PC_ += n`, with the promoted sum stored back into sixteen bits. -/
def advance (c : BananaCpu) (n : BitVec 32) : BananaCpu :=
  { c with PC_ := narrow (promoteU c.PC_ + n) }

def NOP (c : BananaCpu) : BananaCpu := c.advance 4

def BEQ (c : BananaCpu) : BananaCpu :=
  let c := if c.reg c.reg_a_ = c.reg c.reg_b_ then c.advance (4 * promote c.immediate_) else c
  c.advance 4

def JAL (c : BananaCpu) : BananaCpu :=
  let c := c.setReg 31 (narrow (promoteU c.PC_ + 4))
  { c with PC_ := narrow (4 * promote c.immediate_) }

def J (c : BananaCpu) : BananaCpu :=
  { c with PC_ := narrow (4 * promote c.immediate_) }

def ADDI (c : BananaCpu) : BananaCpu :=
  (c.setReg c.reg_b_ (narrow (promote (c.reg c.reg_a_) + promote c.immediate_))).advance 4

def BNE (c : BananaCpu) : BananaCpu :=
  if c.reg c.reg_a_ ≠ c.reg c.reg_b_ then
    { c with PC_ := narrow (promoteU c.PC_ + 4 + 4 * promote c.immediate_) }
  else c.advance 4

/-- The shape of the R-type instructions that store one `int` into `reg_c_`. -/
def storeC (c : BananaCpu) (v : BitVec 32) : BananaCpu :=
  (c.setReg c.reg_c_ (narrow v)).advance 4

def SUB (c : BananaCpu) : BananaCpu :=
  c.storeC (promote (c.reg c.reg_a_) - promote (c.reg c.reg_b_))

/-- The cast to `unsigned` is applied to the sign-extended operand. -/
def SRL (c : BananaCpu) : BananaCpu :=
  c.storeC (promote (c.reg c.reg_b_) >>> c.shift_value_.toNat)

def AND (c : BananaCpu) : BananaCpu :=
  c.storeC (promote (c.reg c.reg_a_) &&& promote (c.reg c.reg_b_))

def NOR (c : BananaCpu) : BananaCpu :=
  c.storeC (~~~(promote (c.reg c.reg_a_) ||| promote (c.reg c.reg_b_)))

def SRA (c : BananaCpu) : BananaCpu :=
  c.storeC ((promote (c.reg c.reg_b_)).sshiftRight c.shift_value_.toNat)

def SLL (c : BananaCpu) : BananaCpu :=
  c.storeC (promote (c.reg c.reg_b_) <<< c.shift_value_.toNat)

def JR (c : BananaCpu) : BananaCpu :=
  { c with PC_ := c.reg c.reg_a_ }

def OR (c : BananaCpu) : BananaCpu :=
  c.storeC (promote (c.reg c.reg_a_) ||| promote (c.reg c.reg_b_))

def SLT (c : BananaCpu) : BananaCpu :=
  c.storeC (if (c.reg c.reg_a_).slt (c.reg c.reg_b_) then 1 else 0)

def ADD (c : BananaCpu) : BananaCpu :=
  c.storeC (promote (c.reg c.reg_a_) + promote (c.reg c.reg_b_))

def DecodeInstruction (c : BananaCpu) (instruction : BitVec 32) : BananaCpu :=
  { c with
    op_code_ := narrow ((instruction >>> 26) &&& 0x0000003F)
    reg_a_ := narrow ((instruction &&& 0x03E00000) >>> 21)
    reg_b_ := narrow ((instruction &&& 0x001F0000) >>> 16)
    reg_c_ := narrow ((instruction &&& 0x0000F800) >>> 11)
    shift_value_ := narrow ((instruction &&& 0x000007C0) >>> 6)
    function_ := narrow (instruction &&& 0x0000003F)
    immediate_ := narrow (instruction &&& 0x0000FFFF) }

end BananaCpu

/-! ## Loads, stores and dispatch -/

namespace Machine

/-- Run an instruction that touches the processor only. -/
def onCpu (f : BananaCpu → BananaCpu) (m : Machine) : Machine :=
  { m with CPU_ := f m.CPU_ }

/-- The effective address of a load or store, as the `int` the source computes. -/
def effective (m : Machine) : BitVec 32 :=
  promote (m.CPU_.reg m.CPU_.reg_a_) + promote m.CPU_.immediate_

/-- The device tests compare the `int` sum, the write uses its low sixteen bits. -/
def SB (m : Machine) : Machine :=
  let addr := m.effective
  let data := (m.CPU_.reg m.CPU_.reg_b_).setWidth 8
  let m := (m.write8 (narrow addr) data).onCpu (·.advance 4)
  if addr = BitVec.ofNat 32 kDebugstdoutAddress then { m with stdout := m.stdout ++ [data] }
  else if addr = BitVec.ofNat 32 kDebugstderrAddress then { m with stderr := m.stderr ++ [data] }
  else if addr = BitVec.ofNat 32 kStopExecutionAddress then { m with exited := true }
  else m

/-- `std::cin.get()` gives -1 at the end of the input, which the cast makes 0xFF. -/
def LBU (m : Machine) : Machine :=
  let addr := m.effective
  if addr = BitVec.ofNat 32 kDebugstdinAddress then
    let byte := m.stdin.headD 0xFF
    { m with stdin := m.stdin.tail }.onCpu fun c =>
      (c.setReg c.reg_b_ (byte.setWidth 16)).advance 4
  else
    m.onCpu fun c => (c.setReg c.reg_b_ ((m.read8 (narrow addr)).setWidth 16)).advance 4

def LW (m : Machine) : Machine :=
  m.onCpu fun c => (c.setReg c.reg_b_ (m.read16 (narrow m.effective))).advance 4

def SW (m : Machine) : Machine :=
  (m.write16 (narrow m.effective) (m.CPU_.reg m.CPU_.reg_b_)).onCpu (·.advance 4)

/-- `function_table_`. -/
def function_table_ (f : ℕ) : BananaCpu → BananaCpu :=
  match FunctionCode.ofNat? f with
  | some .kSUB => BananaCpu.SUB
  | some .kSRL => BananaCpu.SRL
  | some .kAND => BananaCpu.AND
  | some .kNOR => BananaCpu.NOR
  | some .kSRA => BananaCpu.SRA
  | some .kSLL => BananaCpu.SLL
  | some .kJR => BananaCpu.JR
  | some .kOR => BananaCpu.OR
  | some .kSLT => BananaCpu.SLT
  | some .kADD => BananaCpu.ADD
  | none => BananaCpu.NOP

/-- The tables have 64 entries; a negative latch converts to a huge `size_t`. -/
def ExecuteRType (m : Machine) : Machine :=
  if m.CPU_.function_.toNat < 64 then
    m.onCpu (function_table_ m.CPU_.function_.toNat)
  else m.onCpu BananaCpu.NOP

/-- `op_table_`. -/
def op_table_ (op : ℕ) : Machine → Machine :=
  match OpCode.ofNat? op with
  | some .kFUNC => ExecuteRType
  | some .kBEQ => onCpu BananaCpu.BEQ
  | some .kSB => SB
  | some .kJAL => onCpu BananaCpu.JAL
  | some .kLBU => LBU
  | some .kJ => onCpu BananaCpu.J
  | some .kADDI => onCpu BananaCpu.ADDI
  | some .kBNE => onCpu BananaCpu.BNE
  | some .kLW => LW
  | some .kSW => SW
  | none => onCpu BananaCpu.NOP

def ExecuteInstruction (m : Machine) (instruction : BitVec 32) : Machine :=
  let m := m.onCpu (·.DecodeInstruction instruction)
  if m.CPU_.op_code_.toNat < 64 ∧ kSLUGFileAddress ≤ m.CPU_.PC_.toNat then
    op_table_ m.CPU_.op_code_.toNat m
  else m.onCpu BananaCpu.NOP

end Machine

end FavoriteAssignments.Banana
