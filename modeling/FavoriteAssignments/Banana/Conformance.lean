import FavoriteAssignments.Banana.Isa
import FavoriteAssignments.Library.Words

/-! # The processor against its instruction set

Every member function is compared with the assignment its name declares. The
comparison is exact: only the logical right shift can depart from it. -/

namespace FavoriteAssignments.Banana

open Isa

/-- The observable part of a machine; decode latches are scratch space. -/
def Machine.arch (m : Machine) : Arch :=
  ⟨m.CPU_.registers_, m.CPU_.PC_, m.RAM_, m.stdin, m.stdout, m.stderr, m.exited⟩

/-! ## Promotion and truncation -/

theorem promote_eq_ofInt (x : BitVec 16) : promote x = BitVec.ofInt 32 x.toInt :=
  Words.signExtend_eq_ofInt (by decide) x

theorem promoteU_eq_ofInt (x : BitVec 16) : promoteU x = BitVec.ofInt 32 x.toNat :=
  Words.setWidth_eq_ofInt x

theorem narrow_ofInt (z : ℤ) : narrow (BitVec.ofInt 32 z) = BitVec.ofInt 16 z :=
  Words.setWidth_ofInt (by decide) z

theorem narrow_promote (x : BitVec 16) : narrow (promote x) = x := by
  rw [promote_eq_ofInt, narrow_ofInt, BitVec.ofInt_toInt]

theorem narrow_promoteU (x : BitVec 16) : narrow (promoteU x) = x := by
  rw [narrow, promoteU, BitVec.setWidth_setWidth_of_le _ (by decide), BitVec.setWidth_eq]

theorem narrow_add (x y : BitVec 32) : narrow (x + y) = narrow x + narrow y :=
  BitVec.setWidth_add x y (by decide)

theorem four_eq_ofInt : (4 : BitVec 32) = BitVec.ofInt 32 4 := rfl

/-! ## Decoded fields -/

section Decode

variable (m : Machine) (w : BitVec 32)

/-- The machine after `DecodeInstruction`. -/
def Machine.decoded : Machine := m.onCpu (·.DecodeInstruction w)

@[simp] theorem arch_decoded : (m.decoded w).arch = m.arch := rfl

@[simp] theorem decoded_reg (r : BitVec 16) :
    (m.decoded w).CPU_.reg r = m.arch.regs (regIndex r) := rfl

/-- A field of at most sixteen bits fits its latch. -/
private theorem toNat_latch {x : BitVec 32} {n s k : ℕ} (hk : k ≤ 16)
    (h : x.toNat = field n s k) : (narrow x).toNat = field n s k := by
  have hlt : field n s k < 2 ^ 16 :=
    (Nat.mod_lt _ (Nat.two_pow_pos k)).trans_le (Nat.pow_le_pow_right (by decide) hk)
  rw [narrow, BitVec.toNat_setWidth, h, Nat.mod_eq_of_lt hlt]

theorem decoded_op_code_ : (m.decoded w).CPU_.op_code_.toNat = field w.toNat 26 6 :=
  toNat_latch (by decide) (Words.toNat_shiftRight_and w 26 6 (by decide))

theorem decoded_function_ : (m.decoded w).CPU_.function_.toNat = field w.toNat 0 6 :=
  toNat_latch (by decide) (Words.toNat_shiftRight_and w 0 6 (by decide))

theorem decoded_shift_value_ : (m.decoded w).CPU_.shift_value_.toNat = field w.toNat 6 5 :=
  toNat_latch (by decide) (Words.toNat_and_shiftRight w 6 5 (by decide))

/-- A decoded latch selects a register of the file as it stands. -/
theorem decoded_registers :
    (m.decoded w).CPU_.reg_a_.toNat = field w.toNat 21 5 ∧
      (m.decoded w).CPU_.reg_b_.toNat = field w.toNat 16 5 ∧
      (m.decoded w).CPU_.reg_c_.toNat = field w.toNat 11 5 :=
  ⟨toNat_latch (by decide) (Words.toNat_and_shiftRight w 21 5 (by decide)),
    toNat_latch (by decide) (Words.toNat_and_shiftRight w 16 5 (by decide)),
    toNat_latch (by decide) (Words.toNat_and_shiftRight w 11 5 (by decide))⟩

theorem decoded_reg_a_ : regIndex (m.decoded w).CPU_.reg_a_ = fieldReg w.toNat 21 :=
  congrArg (Fin.ofNat 32) (decoded_registers m w).1

theorem decoded_reg_b_ : regIndex (m.decoded w).CPU_.reg_b_ = fieldReg w.toNat 16 :=
  congrArg (Fin.ofNat 32) (decoded_registers m w).2.1

theorem decoded_reg_c_ : regIndex (m.decoded w).CPU_.reg_c_ = fieldReg w.toNat 11 :=
  congrArg (Fin.ofNat 32) (decoded_registers m w).2.2

theorem decoded_immediate_ : (m.decoded w).CPU_.immediate_.toInt = imm w.toNat := by
  have hn : (m.decoded w).CPU_.immediate_.toNat = field w.toNat 0 16 :=
    toNat_latch (by decide) (Words.toNat_shiftRight_and w 0 16 (by decide))
  rw [BitVec.toInt_eq_toNat_bmod, hn]
  rfl

end Decode

/-! ## Assignments -/

section Assign

variable (m : Machine)

theorem promoteU_add_four (pc : BitVec 16) :
    narrow (promoteU pc + 4) = BitVec.ofInt 16 (pc.toNat + 4) := by
  rw [promoteU_eq_ofInt, four_eq_ofInt, ← BitVec.ofInt_add, narrow_ofInt]

theorem four_mul_promote (x : BitVec 16) :
    4 * promote x = BitVec.ofInt 32 (4 * x.toInt) := by
  rw [promote_eq_ofInt, four_eq_ofInt, ← BitVec.ofInt_mul]

theorem arch_nop : (m.onCpu BananaCpu.NOP).arch = m.arch.next := by
  simp only [Machine.arch, Machine.onCpu, BananaCpu.NOP, BananaCpu.advance, Arch.next, Arch.goto,
    promoteU_add_four]

/-- Storing an `int` writes its residue into `reg_c_` and advances. -/
theorem arch_storeC (v : BananaCpu → BitVec 32) :
    (m.onCpu fun c => c.storeC (v c)).arch =
      (m.arch.write (regIndex m.CPU_.reg_c_) (narrow (v m.CPU_))).next := by
  simp only [Machine.arch, Machine.onCpu, BananaCpu.storeC, BananaCpu.setReg, BananaCpu.advance,
    Arch.write, Arch.next, Arch.goto, promoteU_add_four]

theorem narrow_promote_add (x y : BitVec 16) :
    narrow (promote x + promote y) = BitVec.ofInt 16 (x.toInt + y.toInt) := by
  rw [promote_eq_ofInt, promote_eq_ofInt, ← BitVec.ofInt_add, narrow_ofInt]

theorem narrow_promote_sub (x y : BitVec 16) :
    narrow (promote x - promote y) = BitVec.ofInt 16 (x.toInt - y.toInt) := by
  rw [promote_eq_ofInt, promote_eq_ofInt, ← Words.ofInt_sub, narrow_ofInt]

theorem narrow_and (x y : BitVec 32) : narrow (x &&& y) = narrow x &&& narrow y :=
  BitVec.setWidth_and

theorem narrow_or (x y : BitVec 32) : narrow (x ||| y) = narrow x ||| narrow y :=
  BitVec.setWidth_or

theorem narrow_not (x : BitVec 32) : narrow (~~~x) = ~~~(narrow x) :=
  BitVec.setWidth_not (by decide)

theorem narrow_sll (x : BitVec 16) (n : ℕ) :
    narrow (promote x <<< n) = BitVec.ofInt 16 (x.toInt * 2 ^ n) := by
  rw [Words.shiftLeft_eq_ofInt, narrow_ofInt, promote,
    BitVec.toInt_signExtend_of_le (by decide)]

theorem narrow_sra (x : BitVec 16) (n : ℕ) :
    narrow ((promote x).sshiftRight n) = BitVec.ofInt 16 (x.toInt / 2 ^ n) := by
  rw [Words.sshiftRight_eq_ofInt, narrow_ofInt, promote,
    BitVec.toInt_signExtend_of_le (by decide)]

/-- The sign bits above the operand reach the result unless nothing is shifted
in or they are zero. -/
theorem narrow_srl_iff (x : BitVec 16) (n : ℕ) (hn : n < 32) :
    narrow (promote x >>> n) = BitVec.ofNat 16 (x.toNat / 2 ^ n) ↔ n = 0 ∨ x.msb = false := by
  rw [← Words.ushiftRight_eq_ofNat]
  exact Words.ushiftRight_signExtend_iff x n (by decide) (by decide) hn

theorem narrow_slt (x y : BitVec 16) :
    narrow (if x.slt y then 1 else 0) = if x.toInt < y.toInt then 1 else 0 := by
  rw [BitVec.slt_eq_decide]
  by_cases h : x.toInt < y.toInt <;> simp [h, narrow]

end Assign

/-! ## One instruction -/

section Execute

variable (m : Machine) (w : BitVec 32)

theorem executeInstruction_eq (hpc : kSLUGFileAddress ≤ m.CPU_.PC_.toNat) :
    m.ExecuteInstruction w = Machine.op_table_ (field w.toNat 26 6) (m.decoded w) := by
  have hop := decoded_op_code_ m w
  have hlt : field w.toNat 26 6 < 64 := Nat.mod_lt _ (by decide)
  have hcond : (m.decoded w).CPU_.op_code_.toNat < 64 ∧
      kSLUGFileAddress ≤ (m.decoded w).CPU_.PC_.toNat := ⟨hop ▸ hlt, hpc⟩
  change (if (m.decoded w).CPU_.op_code_.toNat < 64 ∧
      kSLUGFileAddress ≤ (m.decoded w).CPU_.PC_.toNat then
    Machine.op_table_ (m.decoded w).CPU_.op_code_.toNat (m.decoded w)
    else (m.decoded w).onCpu BananaCpu.NOP) = _
  rw [if_pos hcond, hop]

theorem executeRType_eq :
    (m.decoded w).ExecuteRType =
      (m.decoded w).onCpu (Machine.function_table_ (field w.toNat 0 6)) := by
  have hlt : field w.toNat 0 6 < 64 := Nat.mod_lt _ (by decide)
  rw [Machine.ExecuteRType, decoded_function_, if_pos hlt]

/-- The operand of a logical right shift is negative and the shift moves it. -/
def ShiftsSignIn (a : Arch) : Instr → Prop
  | .srl _ rb shift => shift ≠ 0 ∧ (a.regs rb).msb = true
  | _ => False

/-- Two written register files agree exactly when the written words do. -/
theorem write_next_inj (a : Arch) (r : Fin 32) (x y : BitVec 16) :
    (a.write r x).next = (a.write r y).next ↔ x = y := by
  constructor
  · intro h
    have hr := congrFun (congrArg Arch.regs h) r
    simpa [Arch.write, Arch.next, Arch.goto] using hr
  · rintro rfl
    rfl

theorem arch_srl_iff :
    ((m.decoded w).onCpu BananaCpu.SRL).arch =
        exec (.srl (fieldReg w.toNat 11) (fieldReg w.toNat 16) (field w.toNat 6 5)) m.arch ↔
      ¬ ShiftsSignIn m.arch
        (.srl (fieldReg w.toNat 11) (fieldReg w.toNat 16) (field w.toNat 6 5)) := by
  have hs := decoded_shift_value_ m w
  have hb := decoded_reg_b_ m w
  have hc := decoded_reg_c_ m w
  have hlt : field w.toNat 6 5 < 32 := Nat.mod_lt _ (by decide)
  have hstore := arch_storeC (m.decoded w)
    (fun c => promote (c.reg c.reg_b_) >>> c.shift_value_.toNat)
  rw [arch_decoded, hc, decoded_reg, hb, hs] at hstore
  change ((m.decoded w).onCpu BananaCpu.SRL).arch = _ at hstore
  rw [hstore]
  simp only [exec]
  rw [write_next_inj, narrow_srl_iff _ _ hlt]
  simp only [ShiftsSignIn, not_and_or, not_not, Bool.not_eq_true]

/-- Every R-type instruction but the logical right shift is the declared one. -/
theorem arch_function_table_ (hf : FunctionCode.ofNat? (field w.toNat 0 6) ≠ some .kSRL) :
    ((m.decoded w).onCpu (Machine.function_table_ (field w.toNat 0 6))).arch =
      exec (decodeFunction w.toNat) m.arch := by
  have ha := decoded_reg_a_ m w
  have hb := decoded_reg_b_ m w
  have hc := decoded_reg_c_ m w
  have hs := decoded_shift_value_ m w
  have hstore := fun v => arch_storeC (m.decoded w) v
  simp only [arch_decoded, hc] at hstore
  unfold Machine.function_table_ decodeFunction
  cases hcode : FunctionCode.ofNat? (field w.toNat 0 6) with
  | none => exact arch_nop _
  | some code =>
      cases code with
      | kSUB =>
          refine (hstore fun c => promote (c.reg c.reg_a_) - promote (c.reg c.reg_b_)).trans ?_
          simp only [decoded_reg, ha, hb, narrow_promote_sub, exec]
      | kSRL => exact absurd hcode hf
      | kAND =>
          refine (hstore fun c => promote (c.reg c.reg_a_) &&& promote (c.reg c.reg_b_)).trans ?_
          simp only [decoded_reg, ha, hb, narrow_and, narrow_promote, exec]
      | kNOR =>
          refine (hstore fun c =>
            ~~~(promote (c.reg c.reg_a_) ||| promote (c.reg c.reg_b_))).trans ?_
          simp only [decoded_reg, ha, hb, narrow_not, narrow_or, narrow_promote, exec]
      | kSRA =>
          refine (hstore fun c =>
            (promote (c.reg c.reg_b_)).sshiftRight c.shift_value_.toNat).trans ?_
          simp only [decoded_reg, hb, hs, narrow_sra, exec]
      | kSLL =>
          refine (hstore fun c => promote (c.reg c.reg_b_) <<< c.shift_value_.toNat).trans ?_
          simp only [decoded_reg, hb, hs, narrow_sll, exec]
      | kJR =>
          change (⟨_, (m.decoded w).CPU_.reg _, _, _, _, _, _⟩ : Arch) = _
          rw [decoded_reg, ha]
          rfl
      | kOR =>
          refine (hstore fun c => promote (c.reg c.reg_a_) ||| promote (c.reg c.reg_b_)).trans ?_
          simp only [decoded_reg, ha, hb, narrow_or, narrow_promote, exec]
      | kSLT =>
          refine (hstore fun c =>
            if (c.reg c.reg_a_).slt (c.reg c.reg_b_) then 1 else 0).trans ?_
          simp only [decoded_reg, ha, hb, narrow_slt, exec]
      | kADD =>
          refine (hstore fun c => promote (c.reg c.reg_a_) + promote (c.reg c.reg_b_)).trans ?_
          simp only [decoded_reg, ha, hb, narrow_promote_add, exec]

/-! ## Control flow -/

theorem narrow_branch (pc x : BitVec 16) :
    narrow (promoteU pc + 4 + 4 * promote x) = BitVec.ofInt 16 (pc.toNat + 4 + 4 * x.toInt) := by
  rw [promoteU_eq_ofInt, four_mul_promote, four_eq_ofInt, ← BitVec.ofInt_add,
    ← BitVec.ofInt_add, narrow_ofInt]

/-- `BEQ` adds the offset before the four, in two sixteen-bit steps. -/
theorem narrow_branch_twice (pc x : BitVec 16) :
    narrow (promoteU (narrow (promoteU pc + 4 * promote x)) + 4) =
      BitVec.ofInt 16 (pc.toNat + 4 + 4 * x.toInt) := by
  have hcomm : promoteU pc + 4 * promote x + 4 = promoteU pc + 4 + 4 * promote x := by
    rw [BitVec.add_assoc, BitVec.add_comm (4 * promote x) 4, ← BitVec.add_assoc]
  rw [narrow_add, narrow_promoteU, ← narrow_add, hcomm, narrow_branch]

theorem arch_beq :
    ((m.decoded w).onCpu BananaCpu.BEQ).arch =
      exec (.beq (fieldReg w.toNat 21) (fieldReg w.toNat 16) (imm w.toNat)) m.arch := by
  have ha := decoded_reg_a_ m w
  have hb := decoded_reg_b_ m w
  have hi := decoded_immediate_ m w
  simp only [exec, ← hi, ← ha, ← hb, ← decoded_reg m w]
  by_cases h : (m.decoded w).CPU_.reg (m.decoded w).CPU_.reg_a_ =
      (m.decoded w).CPU_.reg (m.decoded w).CPU_.reg_b_
  · simp only [Machine.arch, Machine.onCpu, BananaCpu.BEQ, BananaCpu.advance, if_pos h,
      narrow_branch_twice, Arch.goto]
    rfl
  · simp only [Machine.arch, Machine.onCpu, BananaCpu.BEQ, BananaCpu.advance, if_neg h,
      promoteU_add_four, Arch.next, Arch.goto]
    rfl

theorem arch_bne :
    ((m.decoded w).onCpu BananaCpu.BNE).arch =
      exec (.bne (fieldReg w.toNat 21) (fieldReg w.toNat 16) (imm w.toNat)) m.arch := by
  have ha := decoded_reg_a_ m w
  have hb := decoded_reg_b_ m w
  have hi := decoded_immediate_ m w
  simp only [exec, ← hi, ← ha, ← hb, ← decoded_reg m w]
  by_cases h : (m.decoded w).CPU_.reg (m.decoded w).CPU_.reg_a_ ≠
      (m.decoded w).CPU_.reg (m.decoded w).CPU_.reg_b_
  · simp only [Machine.arch, Machine.onCpu, BananaCpu.BNE, if_pos h, narrow_branch, Arch.goto]
    rfl
  · simp only [Machine.arch, Machine.onCpu, BananaCpu.BNE, BananaCpu.advance, if_neg h,
      promoteU_add_four, Arch.next, Arch.goto]
    rfl

theorem arch_jal :
    ((m.decoded w).onCpu BananaCpu.JAL).arch = exec (.jal (imm w.toNat)) m.arch := by
  have hi := decoded_immediate_ m w
  simp only [exec, ← hi, Machine.arch, Machine.onCpu, BananaCpu.JAL, BananaCpu.setReg,
    promoteU_add_four, four_mul_promote, narrow_ofInt, Arch.write, Arch.goto]
  rfl

theorem arch_j :
    ((m.decoded w).onCpu BananaCpu.J).arch = exec (.j (imm w.toNat)) m.arch := by
  have hi := decoded_immediate_ m w
  simp only [exec, ← hi, Machine.arch, Machine.onCpu, BananaCpu.J, four_mul_promote,
    narrow_ofInt, Arch.goto]
  rfl

theorem arch_addi :
    ((m.decoded w).onCpu BananaCpu.ADDI).arch =
      exec (.addi (fieldReg w.toNat 16) (fieldReg w.toNat 21) (imm w.toNat)) m.arch := by
  have ha := decoded_reg_a_ m w
  have hb := decoded_reg_b_ m w
  have hi := decoded_immediate_ m w
  simp only [exec, ← hi, ← ha, ← hb, Machine.arch, Machine.onCpu,
    BananaCpu.ADDI, BananaCpu.setReg, BananaCpu.advance, narrow_promote_add,
    promoteU_add_four, Arch.write, Arch.next, Arch.goto]
  rfl

/-! ## The whole instruction set -/

theorem executeInstruction_arch_iff (hpc : kSLUGFileAddress ≤ m.CPU_.PC_.toNat)
    (i : Instr) (hi : Isa.decode w.toNat = some i) :
    (m.ExecuteInstruction w).arch = exec i m.arch ↔ ¬ ShiftsSignIn m.arch i := by
  rw [executeInstruction_eq m w hpc]
  unfold Isa.decode at hi
  unfold Machine.op_table_
  cases hcode : OpCode.ofNat? (field w.toNat 26 6) with
  | none =>
      simp only [hcode, Option.some.injEq] at hi
      subst hi
      exact iff_of_true (arch_nop _) id
  | some code =>
      simp only [hcode] at hi
      cases code with
      | kFUNC =>
          obtain rfl := Option.some.inj hi
          simp only [executeRType_eq]
          by_cases hf : FunctionCode.ofNat? (field w.toNat 0 6) = some .kSRL
          · have hsrl := arch_srl_iff m w
            simpa only [Machine.function_table_, decodeFunction, hf] using hsrl
          · refine iff_of_true (arch_function_table_ m w hf) ?_
            unfold decodeFunction
            split <;> first | exact absurd ‹_› hf | exact id
      | kBEQ => obtain rfl := Option.some.inj hi; exact iff_of_true (arch_beq m w) id
      | kBNE => obtain rfl := Option.some.inj hi; exact iff_of_true (arch_bne m w) id
      | kJAL => obtain rfl := Option.some.inj hi; exact iff_of_true (arch_jal m w) id
      | kJ => obtain rfl := Option.some.inj hi; exact iff_of_true (arch_j m w) id
      | kADDI => obtain rfl := Option.some.inj hi; exact iff_of_true (arch_addi m w) id
      | kSB => cases hi
      | kLBU => cases hi
      | kLW => cases hi
      | kSW => cases hi

/-- Jumping through the link register resumes after the call. -/
theorem jr_returns_after_jal (ret : BitVec 32) (target : ℤ)
    (hpc : kSLUGFileAddress ≤ m.CPU_.PC_.toNat)
    (hcall : Isa.decode w.toNat = some (.jal target))
    (hret : Isa.decode ret.toNat = some (.jr 31))
    (hin : kSLUGFileAddress ≤ (m.ExecuteInstruction w).CPU_.PC_.toNat) :
    ((m.ExecuteInstruction w).ExecuteInstruction ret).CPU_.PC_ =
      BitVec.ofInt 16 (m.CPU_.PC_.toNat + 4) := by
  have hlink := (executeInstruction_arch_iff m w hpc _ hcall).mpr id
  have hback := (executeInstruction_arch_iff _ ret hin _ hret).mpr id
  rw [hlink] at hback
  have hpc' := congrArg Arch.pc hback
  simp only [exec, Arch.write, Arch.goto, Function.update_self] at hpc'
  exact hpc'

/-- An instruction other than a load or store computes what its name declares,
and changes nothing else, exactly when it shifts no sign bit down logically; a
call through the link register returns behind the call. -/
theorem executeInstruction_conforms_iff (hpc : kSLUGFileAddress ≤ m.CPU_.PC_.toNat) :
    (∀ i, Isa.decode w.toNat = some i →
      ((m.ExecuteInstruction w).arch = exec i m.arch ↔ ¬ ShiftsSignIn m.arch i)) ∧
    (∀ (target : ℤ) (ret : BitVec 32), Isa.decode w.toNat = some (.jal target) →
      Isa.decode ret.toNat = some (.jr 31) →
      kSLUGFileAddress ≤ (m.ExecuteInstruction w).CPU_.PC_.toNat →
      ((m.ExecuteInstruction w).ExecuteInstruction ret).CPU_.PC_ =
        BitVec.ofInt 16 (m.CPU_.PC_.toNat + 4)) :=
  ⟨executeInstruction_arch_iff m w hpc,
    fun target ret hcall hret hin => jr_returns_after_jal m w ret target hpc hcall hret hin⟩

end Execute

/-- A machine that has just entered the code region with every register at -1. -/
def allOnes : Machine where
  CPU_ :=
    { registers_ := fun _ => -1, op_code_ := 0, reg_a_ := 0, reg_b_ := 0, reg_c_ := 0,
      shift_value_ := 0, function_ := 0, immediate_ := 0, PC_ := 0x8000 }
  RAM_ := fun _ => 0
  stdin := []
  stdout := []
  stderr := []
  exited := false

/-- `SRL r2, r1, 1` on -1 leaves 0xFFFF instead of 0x7FFF. -/
theorem srl_of_minus_one_departs :
    ¬ ∀ (m : Machine) (w : BitVec 32) (i : Instr), kSLUGFileAddress ≤ m.CPU_.PC_.toNat →
      Isa.decode w.toNat = some i → (m.ExecuteInstruction w).arch = exec i m.arch := by
  intro h
  have harch := h allOnes 0x0001104D (.srl 2 1 1) (by decide) (by decide)
  have hreg := congrArg (fun a : Arch => a.regs 2) harch
  revert hreg
  decide

/-- The same word on a machine whose registers are all positive and odd. -/
theorem executeInstruction_conforms_odd :
    let m : Machine := { allOnes with CPU_ := { allOnes.CPU_ with registers_ := fun _ => 0x1235 } }
    (m.ExecuteInstruction 0x0001104D).arch = exec (.srl 2 1 1) m.arch ∧
      (exec (.srl 2 1 1) m.arch).regs 2 = 0x091A :=
  ⟨((executeInstruction_conforms_iff _ 0x0001104D (by decide)).1 (.srl 2 1 1) (by decide)).mpr
    (by rintro ⟨-, h⟩; revert h; decide), by decide⟩

end FavoriteAssignments.Banana
