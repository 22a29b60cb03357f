import FavoriteAssignments.Banana.Conformance
import FavoriteAssignments.Library.Transition
import Mathlib.Data.List.Basic

/-! # Running programs

`setup` and `loop` of `console.cpp` as single steps, and the indices of `RAM_` that every step
uses. -/

namespace FavoriteAssignments.Banana

open Transition

def kVRAMAddress : ℕ := 0x5200
def kSetupAddress : ℕ := 0x81e0
def kLoopAddress : ℕ := 0x81e4

namespace Machine

/-! ## The parts of `setup` and `loop` -/

/-- The jump to the routine whose address is stored at `entry`. -/
def enter (m : Machine) (entry : ℕ) : Machine :=
  let address := m.read32 (BitVec.ofNat 16 entry)
  m.onCpu fun c => { c with immediate_ := narrow (address / 4), PC_ := 0xfffc }.JAL

/-- The word at the program counter. -/
def fetched (m : Machine) : BitVec 32 := m.read32 m.CPU_.PC_

/-- The body of the loop. -/
def cycle (m : Machine) : Machine := m.ExecuteInstruction m.fetched

def leave (m : Machine) : Machine :=
  m.onCpu fun c =>
    { c with registers_ := Function.update c.registers_ 29 (BitVec.ofNat 16 kVRAMAddress) }

/-! ## Indices of the memory -/

/-- What `read8`, `read16` and `read32` index, for one, two and four bytes. -/
def readIndices (bytes : ℕ) (address : BitVec 16) : List ℕ :=
  if readable address then (List.range bytes).map (address.toNat + ·) else []

/-- What `write8` and `write16` index, for one and two bytes. -/
def writeIndices (bytes : ℕ) (address : BitVec 16) : List ℕ :=
  if writable address bytes then (List.range bytes).map (address.toNat + ·) else []

/-- What the instruction in the latches indexes. -/
def operandIndices (m : Machine) : List ℕ :=
  match OpCode.ofNat? m.CPU_.op_code_.toNat with
  | some .kSB => writeIndices 1 (narrow m.effective)
  | some .kLBU =>
      if m.effective = BitVec.ofNat 32 kDebugstdinAddress then []
      else readIndices 1 (narrow m.effective)
  | some .kLW => readIndices 2 (narrow m.effective)
  | some .kSW => writeIndices 2 (narrow m.effective)
  | _ => []

/-- What the body of the loop indexes: the four bytes of the word, then its operands. -/
def cycleIndices (m : Machine) : List ℕ :=
  readIndices 4 m.CPU_.PC_ ++ (m.decoded m.fetched).operandIndices

end Machine

/-! ## Sessions -/

/-- The machine between two steps, whether `setup` or `loop` is running, and the indices of
`RAM_` used so far. -/
structure Session where
  machine : Machine
  running : Bool
  indices : List ℕ

inductive Action where
  | setup | loop | execute | finish
  deriving DecidableEq, Repr

namespace Session

/-- `setup` or `loop` begins. -/
def call (s : Session) (entry : ℕ) : Option Session :=
  if s.running = false ∧ s.machine.exited = false then
    some
      { machine := s.machine.enter entry
        running := true
        indices := s.indices ++ Machine.readIndices 4 (BitVec.ofNat 16 entry) }
  else none

/-- The loop of `setup` and `loop` runs until the program counter leaves the program. -/
def next (s : Session) : Action → Option Session
  | .setup => s.call kSetupAddress
  | .loop => s.call kLoopAddress
  | .execute =>
      if (s.running = true ∧ s.machine.exited = false) ∧
          kSLUGFileAddress ≤ s.machine.CPU_.PC_.toNat then
        some { s with machine := s.machine.cycle, indices := s.indices ++ s.machine.cycleIndices }
      else none
  | .finish =>
      if (s.running = true ∧ s.machine.exited = false) ∧
          s.machine.CPU_.PC_.toNat < kSLUGFileAddress then
        some { s with machine := s.machine.leave, running := false }
      else none

/-- The sessions that follow from `s₀` by steps that meet `ok`. -/
abbrev From (s₀ : Session) (ok : Session → Action → Prop) : Session → Prop :=
  Reachable (· = s₀) (fun s a s' => s.next a = some s') ok

/-- A test passed at the end of a run is passed by one of them. -/
theorem exists_of_run (s₀ : Session) (ok : Session → Action → Prop) [∀ s a, Decidable (ok s a)]
    (actions : List Action) (f : Session → Bool)
    (h : (runWhile ok next s₀ actions).any f = true) : ∃ s, From s₀ ok s ∧ f s = true :=
  exists_reachable_of_run rfl h

theorem next_execute {s s' : Session} (h : s.next .execute = some s') :
    kSLUGFileAddress ≤ s.machine.CPU_.PC_.toNat ∧
      s'.machine = s.machine.cycle ∧ s'.indices = s.indices ++ s.machine.cycleIndices := by
  rw [next] at h
  split at h
  · next hrun =>
      cases h
      exact ⟨hrun.2, rfl, rfl⟩
  · cases h

/-- All other steps leave the memory alone, and index only the entry of the program. -/
theorem next_of_ne_execute {s s' : Session} {a : Action} (ha : a ≠ .execute)
    (h : s.next a = some s') : s'.machine.RAM_ = s.machine.RAM_ ∧
      ∃ is, s'.indices = s.indices ++ is ∧ ∀ i ∈ is, i < ramSize := by
  cases a with
  | setup =>
      rw [next, call] at h
      split at h
      · cases h
        exact ⟨rfl, _, rfl, by decide⟩
      · cases h
  | loop =>
      rw [next, call] at h
      split at h
      · cases h
        exact ⟨rfl, _, rfl, by decide⟩
      · cases h
  | execute => exact absurd rfl ha
  | finish =>
      rw [next] at h
      split at h
      · cases h
        refine ⟨rfl, [], (List.append_nil _).symm, ?_⟩
        intro i hi
        cases hi
      · cases h

end Session

end FavoriteAssignments.Banana
