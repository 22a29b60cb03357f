import FavoriteAssignments.Banana.Console

/-! # Memory accesses

Which indices of `RAM_` an instruction reads and writes. A store goes to the memory only where
`writable` allows it for every one of its bytes. -/

namespace FavoriteAssignments.Banana

namespace Machine

/-! ## Loads and stores -/

section Access

variable {m m' : Machine} {bytes i : ℕ} {address : BitVec 16}

theorem bounds_of_mem_readIndices (h : i ∈ readIndices bytes address) :
    address.toNat ≤ i ∧ i < address.toNat + bytes := by
  rw [readIndices] at h
  split at h
  · obtain ⟨k, hk, rfl⟩ := List.mem_map.mp h
    have hk' := List.mem_range.mp hk
    omega
  · cases h

theorem bounds_of_mem_writeIndices (h : i ∈ writeIndices bytes address) :
    address.toNat ≤ i ∧ i < address.toNat + bytes := by
  rw [writeIndices] at h
  split at h
  · obtain ⟨k, hk, rfl⟩ := List.mem_map.mp h
    have hk' := List.mem_range.mp hk
    omega
  · cases h

/-- A read depends on the memory only at the indices it uses. -/
theorem readBytes_congr (w : ℕ) (h : ∀ i ∈ readIndices bytes address, m.RAM_ i = m'.RAM_ i) :
    m.readBytes w bytes address = m'.readBytes w bytes address := by
  rw [readBytes, readBytes]
  rw [readIndices] at h
  split
  · next hreadable =>
      rw [if_pos hreadable] at h
      apply List.foldl_ext
      intro data k hk
      rw [h _ (List.mem_map_of_mem hk)]
  · rfl

theorem read8_congr (h : ∀ i ∈ readIndices 1 address, m.RAM_ i = m'.RAM_ i) :
    m.read8 address = m'.read8 address := by
  rw [read8, read8]
  rw [readIndices] at h
  split
  · next hreadable =>
      rw [if_pos hreadable] at h
      exact h _ (List.mem_map_of_mem (List.mem_range.mpr one_pos))
  · rfl

theorem foldl_update_of_notMem {β : Type*} (f : ℕ → ℕ) (g : ℕ → β) (is : List ℕ) (A : ℕ → β)
    (h : i ∉ is.map f) : (is.foldl (fun A k => Function.update A (f k) (g k)) A) i = A i := by
  induction is generalizing A with
  | nil => rfl
  | cons k is ih =>
      rw [List.map_cons, List.mem_cons, not_or] at h
      rw [List.foldl_cons, ih _ h.2, Function.update_of_ne h.1]

/-- A store changes the memory only at the indices it uses. -/
theorem writeBytes_of_notMem {w : ℕ} (data : BitVec w) (h : i ∉ writeIndices bytes address) :
    (m.writeBytes bytes address data).RAM_ i = m.RAM_ i := by
  rw [writeBytes]
  rw [writeIndices] at h
  split
  · next hwritable =>
      rw [if_pos hwritable] at h
      exact foldl_update_of_notMem _ _ _ _ h
  · rfl

theorem write8_of_notMem (data : BitVec 8) (h : i ∉ writeIndices 1 address) :
    (m.write8 address data).RAM_ i = m.RAM_ i := by
  rw [write8]
  rw [writeIndices] at h
  split
  · next hwritable =>
      rw [if_pos hwritable] at h
      apply Function.update_of_ne
      rintro rfl
      exact h (List.mem_map_of_mem (List.mem_range.mpr one_pos))
  · rfl

/-- The high byte goes to the lower address. -/
theorem write16_of_writable (data : BitVec 16) (h : writable address 2 = true) :
    (m.write16 address data).RAM_ =
      Function.update (Function.update m.RAM_ address.toNat ((data >>> 8).setWidth 8))
        (address.toNat + 1) (data.setWidth 8) := by
  have hrange : List.range 2 = [0, 1] := rfl
  have hlow : data >>> (8 * (2 - 1 - 1)) = data := BitVec.ushiftRight_zero data
  rw [write16, writeBytes, if_pos h, hrange]
  simp only [List.foldl_cons, List.foldl_nil, hlow]
  rfl

/-- Every byte of a store passes the test. -/
theorem writableAt_of_mem (h : i ∈ writeIndices bytes address) : writableAt i = true := by
  rw [writeIndices] at h
  split at h
  · next hwritable =>
      obtain ⟨k, hk, rfl⟩ := List.mem_map.mp h
      exact List.all_eq_true.mp hwritable k hk
  · cases h

theorem writableAt_iff : writableAt i = true ↔
    i ≤ 0x7000 ∨ i = kDebugstdoutAddress ∨ i = kDebugstderrAddress ∨ i = kStopExecutionAddress := by
  simp only [writableAt, kRAMAddress, kRAMSize, Nat.zero_le, Nat.zero_add, decide_true,
    Bool.true_and, Bool.or_eq_true, decide_eq_true_eq, or_assoc]

end Access

/-! ## One instruction -/

section Cycle

variable {m : Machine}

theorem RAM_SB : m.SB.RAM_ =
    (m.write8 (narrow m.effective) ((m.CPU_.reg m.CPU_.reg_b_).setWidth 8)).RAM_ := by
  rw [SB]
  split
  · rfl
  · split
    · rfl
    · split <;> rfl

theorem RAM_LBU : m.LBU.RAM_ = m.RAM_ := by
  rw [LBU]
  split <;> rfl

theorem RAM_ExecuteRType : m.ExecuteRType.RAM_ = m.RAM_ := by
  rw [ExecuteRType]
  split <;> rfl

/-- The machine with the fetched instruction in its latches. -/
def latched (m : Machine) : Machine := m.decoded m.fetched

def opCode (m : Machine) : Option OpCode := OpCode.ofNat? m.latched.CPU_.op_code_.toNat

/-- The operand of a store. -/
def stored (m : Machine) : BitVec 16 := m.latched.CPU_.reg m.latched.CPU_.reg_b_

/-- Where a load or store goes. -/
def address (m : Machine) : BitVec 16 := narrow m.latched.effective

/-- The sum of the register and the immediate modulo 2 ^ 16. -/
def ea (m : Machine) : BitVec 16 :=
  m.latched.CPU_.reg m.latched.CPU_.reg_a_ + m.latched.CPU_.immediate_

/-- The conversion of the `int` sum to `uint16_t`. -/
theorem address_eq_ea : m.address = m.ea := by
  rw [address, effective, narrow_add, narrow_promote, narrow_promote]
  rfl

theorem cycle_eq (hpc : kSLUGFileAddress ≤ m.CPU_.PC_.toNat) :
    m.cycle = op_table_ m.latched.CPU_.op_code_.toNat m.latched := by
  rw [cycle, executeInstruction_eq m m.fetched hpc, latched, decoded_op_code_]

theorem cycle_SB (hpc : kSLUGFileAddress ≤ m.CPU_.PC_.toNat) (hcode : m.opCode = some .kSB) :
    m.cycle = m.latched.SB := by
  rw [opCode] at hcode
  rw [cycle_eq hpc, op_table_, hcode]

theorem cycle_LBU (hpc : kSLUGFileAddress ≤ m.CPU_.PC_.toNat) (hcode : m.opCode = some .kLBU) :
    m.cycle = m.latched.LBU := by
  rw [opCode] at hcode
  rw [cycle_eq hpc, op_table_, hcode]

theorem cycle_LW (hpc : kSLUGFileAddress ≤ m.CPU_.PC_.toNat) (hcode : m.opCode = some .kLW) :
    m.cycle = m.latched.LW := by
  rw [opCode] at hcode
  rw [cycle_eq hpc, op_table_, hcode]

/-- Only the two stores change the memory. -/
theorem RAM_cycle (hpc : kSLUGFileAddress ≤ m.CPU_.PC_.toNat) :
    m.cycle.RAM_ = (match m.opCode with
      | some .kSB => m.latched.write8 m.address (m.stored.setWidth 8)
      | some .kSW => m.latched.write16 m.address m.stored
      | _ => m).RAM_ := by
  rw [cycle_eq hpc, opCode, op_table_]
  cases OpCode.ofNat? m.latched.CPU_.op_code_.toNat with
  | none => rfl
  | some code =>
      cases code with
      | kFUNC => exact RAM_ExecuteRType
      | kSB => exact RAM_SB
      | kLBU => exact RAM_LBU
      | kBEQ => rfl
      | kJAL => rfl
      | kJ => rfl
      | kADDI => rfl
      | kBNE => rfl
      | kLW => rfl
      | kSW => rfl

/-- The indices of an instruction are the only ones where it changes the memory. -/
theorem RAM_cycle_of_notMem {i : ℕ} (hpc : kSLUGFileAddress ≤ m.CPU_.PC_.toNat)
    (hi : i ∉ m.cycleIndices) : m.cycle.RAM_ i = m.RAM_ i := by
  rw [cycleIndices, List.mem_append, not_or] at hi
  have hoperand : i ∉ m.latched.operandIndices := hi.2
  rw [operandIndices] at hoperand
  rw [RAM_cycle hpc]
  split
  · next hcode =>
      rw [opCode] at hcode
      rw [hcode] at hoperand
      exact write8_of_notMem _ hoperand
  · next hcode =>
      rw [opCode] at hcode
      rw [hcode] at hoperand
      exact writeBytes_of_notMem _ hoperand
  · rfl

section Congruence

variable {ram : ℕ → BitVec 8}

/-- The machine with another memory. -/
def withRAM (m : Machine) (ram : ℕ → BitVec 8) : Machine := { m with RAM_ := ram }

theorem SB_withRAM : (m.withRAM ram).SB = m.SB.withRAM (m.withRAM ram).SB.RAM_ := by
  have heffective : (m.withRAM ram).effective = m.effective := rfl
  have hCPU : (m.withRAM ram).CPU_ = m.CPU_ := rfl
  simp only [SB, write8, heffective, hCPU]
  split
  · split <;> rfl
  · split
    · split <;> rfl
    · split
      · split <;> rfl
      · split <;> rfl

theorem SW_withRAM : (m.withRAM ram).SW = m.SW.withRAM (m.withRAM ram).SW.RAM_ := by
  have heffective : (m.withRAM ram).effective = m.effective := rfl
  have hCPU : (m.withRAM ram).CPU_ = m.CPU_ := rfl
  simp only [SW, write16, writeBytes, heffective, hCPU]
  split <;> rfl

theorem LBU_withRAM (h : m.effective ≠ BitVec.ofNat 32 kDebugstdinAddress →
    ∀ i ∈ readIndices 1 (narrow m.effective), ram i = m.RAM_ i) :
    (m.withRAM ram).LBU = m.LBU.withRAM (m.withRAM ram).LBU.RAM_ := by
  have heffective : (m.withRAM ram).effective = m.effective := rfl
  have hstdin : (m.withRAM ram).stdin = m.stdin := rfl
  simp only [LBU, heffective, hstdin]
  split
  · rfl
  · next hdevice =>
      have hread : (m.withRAM ram).read8 (narrow m.effective) = m.read8 (narrow m.effective) :=
        read8_congr (h hdevice)
      rw [hread]
      rfl

theorem LW_withRAM (h : ∀ i ∈ readIndices 2 (narrow m.effective), ram i = m.RAM_ i) :
    (m.withRAM ram).LW = m.LW.withRAM (m.withRAM ram).LW.RAM_ := by
  have hread : (m.withRAM ram).read16 (narrow m.effective) = m.read16 (narrow m.effective) :=
    readBytes_congr 16 h
  have heffective : (m.withRAM ram).effective = m.effective := rfl
  simp only [LW, heffective, hread]
  rfl

theorem ExecuteRType_withRAM : (m.withRAM ram).ExecuteRType =
    m.ExecuteRType.withRAM (m.withRAM ram).ExecuteRType.RAM_ := by
  have hCPU : (m.withRAM ram).CPU_ = m.CPU_ := rfl
  simp only [ExecuteRType, hCPU]
  split <;> rfl

/-- They are also the only ones whose bytes its result depends on. -/
theorem cycle_withRAM (hpc : kSLUGFileAddress ≤ m.CPU_.PC_.toNat)
    (h : ∀ i ∈ m.cycleIndices, ram i = m.RAM_ i) :
    (m.withRAM ram).cycle = m.cycle.withRAM (m.withRAM ram).cycle.RAM_ := by
  rw [cycleIndices, List.forall_mem_append] at h
  have hfetched : (m.withRAM ram).fetched = m.fetched := readBytes_congr 32 h.1
  have hcycle : (m.withRAM ram).cycle =
      op_table_ (Isa.field m.fetched.toNat 26 6) ((m.decoded m.fetched).withRAM ram) := by
    rw [cycle, hfetched]
    exact executeInstruction_eq (m.withRAM ram) m.fetched hpc
  have hoperands := h.2
  rw [operandIndices, decoded_op_code_] at hoperands
  rw [hcycle, cycle, executeInstruction_eq m m.fetched hpc, op_table_]
  cases hcode : OpCode.ofNat? (Isa.field m.fetched.toNat 26 6) with
  | none => rfl
  | some code =>
      rw [hcode] at hoperands
      cases code <;> dsimp only at hoperands ⊢
      case kFUNC => exact ExecuteRType_withRAM
      case kSB => exact SB_withRAM
      case kSW => exact SW_withRAM
      case kLW => exact LW_withRAM hoperands
      case kLBU =>
        apply LBU_withRAM
        intro hdevice
        rw [if_neg hdevice] at hoperands
        exact hoperands
      all_goals rfl

end Congruence

/-- An address that no store may use keeps its byte. -/
theorem RAM_cycle_of_not_writableAt {i : ℕ} (hpc : kSLUGFileAddress ≤ m.CPU_.PC_.toNat)
    (hi : writableAt i = false) : m.cycle.RAM_ i = m.RAM_ i := by
  have hnotMem : ∀ bytes address, i ∉ writeIndices bytes address := by
    intro bytes address h
    rw [writableAt_of_mem h] at hi
    cases hi
  rw [RAM_cycle hpc]
  split
  · exact write8_of_notMem _ (hnotMem _ _)
  · exact writeBytes_of_notMem _ (hnotMem _ _)
  · rfl

end Cycle

end Machine

end FavoriteAssignments.Banana
