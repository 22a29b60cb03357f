import Mathlib.Data.BitVec
import Mathlib.Logic.Function.Basic
import Mathlib.Data.Fin.Basic

/-! # The Banana machine

Registers, decode latches and program counter of `BananaCpu`, and the memory
map of `Console`. Sixteen-bit members are bit vectors; every expression of the
source first promotes them to a 32-bit `int`. -/

namespace FavoriteAssignments.Banana

/-- The members of `BananaCpu` that instructions read and write. -/
structure BananaCpu where
  registers_ : Fin 32 → BitVec 16
  op_code_ : BitVec 16
  reg_a_ : BitVec 16
  reg_b_ : BitVec 16
  reg_c_ : BitVec 16
  shift_value_ : BitVec 16
  function_ : BitVec 16
  immediate_ : BitVec 16
  PC_ : BitVec 16

/-- The processor, its memory and the three standard streams. Bytes of `RAM_`
at and past `ramSize` stand for whatever the heap holds behind the vector. -/
structure Machine where
  CPU_ : BananaCpu
  RAM_ : ℕ → BitVec 8
  stdin : List (BitVec 8)
  stdout : List (BitVec 8)
  stderr : List (BitVec 8)
  exited : Bool

/-! ## Integer promotions -/

/-- An `int16_t` operand as an `int`. -/
def promote (x : BitVec 16) : BitVec 32 := x.signExtend 32

/-- A `uint16_t` operand as an `int`. -/
def promoteU (x : BitVec 16) : BitVec 32 := x.setWidth 32

/-- An `int` stored back into sixteen bits. -/
def narrow (x : BitVec 32) : BitVec 16 := x.setWidth 16

/-! ## Register file -/

instance neZero_registers : NeZero 32 := ⟨by decide⟩

/-- The element of `registers_` a latch selects. `DecodeInstruction` masks every
register latch to five bits, so nothing is reduced here after a decode. -/
def regIndex (r : BitVec 16) : Fin 32 := Fin.ofNat 32 r.toNat

def BananaCpu.reg (c : BananaCpu) (r : BitVec 16) : BitVec 16 :=
  c.registers_ (regIndex r)

def BananaCpu.setReg (c : BananaCpu) (r v : BitVec 16) : BananaCpu :=
  { c with registers_ := Function.update c.registers_ (regIndex r) v }

/-! ## Address space -/

def kRAMAddress : ℕ := 0x0000
def kRAMSize : ℕ := 0x7000
def kControllerDataAddress : ℕ := 0x7000
def kDebugstdinAddress : ℕ := 0x7100
def kDebugstdoutAddress : ℕ := 0x7110
def kDebugstderrAddress : ℕ := 0x7120
def kStopExecutionAddress : ℕ := 0x7200
def kSLUGFileAddress : ℕ := 0x8000
def kSLUGFileSize : ℕ := 0x8000

/-- `RAM_.size()`. -/
def ramSize : ℕ := 0x8000 + 0x8000

/-- Both ranges include their upper end, as the comparisons of the source do. -/
def readable (address : BitVec 16) : Bool :=
  (decide (kRAMAddress ≤ address.toNat) && decide (address.toNat ≤ kRAMAddress + kRAMSize)) ||
  decide (address.toNat = kControllerDataAddress) ||
  (decide (kSLUGFileAddress ≤ address.toNat) &&
    decide (address.toNat ≤ kSLUGFileAddress + kSLUGFileSize))

/-- One iteration of the loop of `writable`, on the promoted sum `address + i`. -/
def writableAt (address : ℕ) : Bool :=
  (decide (kRAMAddress ≤ address) && decide (address ≤ kRAMAddress + kRAMSize)) ||
  decide (address = kDebugstdoutAddress) ||
  decide (address = kDebugstderrAddress) ||
  decide (address = kStopExecutionAddress)

def writable (address : BitVec 16) (bytes : ℕ) : Bool :=
  (List.range bytes).all fun i => writableAt (address.toNat + i)

/-! ## Memory access -/

def Machine.read8 (m : Machine) (address : BitVec 16) : BitVec 8 :=
  if readable address then m.RAM_ address.toNat else 0

/-- The loop shared by `read16` and `read32`. The test uses the first address
only, so bytes past the end of the vector can be fetched. -/
def Machine.readBytes (m : Machine) (w bytes : ℕ) (address : BitVec 16) : BitVec w :=
  if readable address then
    (List.range bytes).foldl
      (fun data i => (data <<< 8) ||| (m.RAM_ (address.toNat + i)).setWidth w) 0
  else 0

def Machine.read16 (m : Machine) (address : BitVec 16) : BitVec 16 :=
  m.readBytes 16 2 address

def Machine.read32 (m : Machine) (address : BitVec 16) : BitVec 32 :=
  m.readBytes 32 4 address

/-- The loop shared by `write16` and `write32`: most significant byte first. -/
def Machine.writeBytes {w : ℕ} (m : Machine) (bytes : ℕ) (address : BitVec 16)
    (data : BitVec w) : Machine :=
  if writable address bytes then
    { m with
      RAM_ := (List.range bytes).foldl
        (fun ram i => Function.update ram (address.toNat + i)
          ((data >>> (8 * (bytes - 1 - i))).setWidth 8)) m.RAM_ }
  else m

def Machine.write8 (m : Machine) (address : BitVec 16) (data : BitVec 8) : Machine :=
  if writable address 1 then
    { m with RAM_ := Function.update m.RAM_ address.toNat data }
  else m

def Machine.write16 (m : Machine) (address : BitVec 16) (data : BitVec 16) : Machine :=
  m.writeBytes 2 address data

def Machine.write32 (m : Machine) (address : BitVec 16) (data : BitVec 32) : Machine :=
  m.writeBytes 4 address data

end FavoriteAssignments.Banana
