import Mathlib.Data.BitVec
import Mathlib.Algebra.Ring.Int.Defs

/-! # Fixed-width words as residues of integers

Promotion, arithmetic and truncation of two's-complement words are read off the
integer a word stands for, so that a chain of promotions collapses to one
`BitVec.ofInt`. -/

namespace FavoriteAssignments.Words

variable {v w : ℕ}

/-! ## Conversions -/

theorem ofInt_sub (x y : ℤ) :
    BitVec.ofInt w (x - y) = BitVec.ofInt w x - BitVec.ofInt w y := by
  have h := BitVec.ofInt_add (n := w) (x - y) y
  rw [sub_add_cancel] at h
  rw [h, BitVec.add_sub_cancel]

/-- Truncating a residue modulo `2 ^ w` gives the residue modulo `2 ^ v`. -/
theorem setWidth_ofInt (h : v ≤ w) (z : ℤ) :
    (BitVec.ofInt w z).setWidth v = BitVec.ofInt v z := by
  apply BitVec.eq_of_toInt_eq
  rw [BitVec.toInt_setWidth, BitVec.toNat_ofInt, BitVec.toInt_ofInt]
  have hpos : (0 : ℤ) < ((2 ^ w : ℕ) : ℤ) := by exact_mod_cast Nat.two_pow_pos w
  rw [Int.toNat_of_nonneg (Int.emod_nonneg z hpos.ne')]
  obtain ⟨k, hk⟩ : ((2 ^ v : ℕ) : ℤ) ∣ ((2 ^ w : ℕ) : ℤ) := by
    exact_mod_cast Nat.pow_dvd_pow 2 h
  have hz : z % ((2 ^ w : ℕ) : ℤ) = z - (2 ^ v : ℕ) * (k * (z / ((2 ^ w : ℕ) : ℤ))) := by
    have := Int.emod_add_mul_ediv z ((2 ^ w : ℕ) : ℤ)
    rw [← Int.mul_assoc, ← hk]
    omega
  rw [hz, Int.sub_mul_bmod_self_left]

theorem signExtend_eq_ofInt (h : v ≤ w) (x : BitVec v) :
    x.signExtend w = BitVec.ofInt w x.toInt := by
  apply BitVec.eq_of_toInt_eq
  rw [BitVec.toInt_signExtend_of_le h, BitVec.toInt_ofInt,
    ← BitVec.toInt_signExtend_of_le h, BitVec.toInt_bmod_cancel]

theorem setWidth_eq_ofInt (x : BitVec v) :
    x.setWidth w = BitVec.ofInt w x.toNat := by
  apply BitVec.eq_of_toNat_eq
  rw [BitVec.ofInt_natCast, BitVec.toNat_setWidth, BitVec.toNat_ofNat]

theorem ofInt_eq_ofNat_iff (z : ℤ) (d : ℕ) :
    BitVec.ofInt w z = BitVec.ofNat w d ↔ ((2 ^ w : ℕ) : ℤ) ∣ z - d := by
  have hpos : ((2 ^ w : ℕ) : ℤ) ≠ 0 := by exact_mod_cast (Nat.two_pow_pos w).ne'
  rw [← BitVec.toNat_inj, BitVec.toNat_ofInt, BitVec.toNat_ofNat, ← Int.natCast_inj,
    Int.toNat_of_nonneg (Int.emod_nonneg z hpos), Int.natCast_emod]
  exact Int.emod_eq_emod_iff_emod_sub_eq_zero.trans Int.dvd_iff_emod_eq_zero.symm

/-! ## Shifts -/

theorem shiftLeft_eq_ofInt (x : BitVec w) (n : ℕ) :
    x <<< n = BitVec.ofInt w (x.toInt * 2 ^ n) := by
  rw [BitVec.shiftLeft_eq_mul_twoPow, BitVec.ofInt_mul, BitVec.ofInt_toInt]
  congr 1
  rw [← Nat.cast_ofNat, ← Nat.cast_pow, BitVec.ofInt_natCast]
  apply BitVec.eq_of_toNat_eq
  rw [BitVec.toNat_twoPow, BitVec.toNat_ofNat]

theorem sshiftRight_eq_ofInt (x : BitVec w) (n : ℕ) :
    x.sshiftRight n = BitVec.ofInt w (x.toInt / 2 ^ n) := by
  have h : x.toInt / 2 ^ n = (x.sshiftRight n).toInt := by
    rw [BitVec.toInt_sshiftRight, Int.shiftRight_eq_div_pow, Nat.cast_pow, Nat.cast_ofNat]
  rw [h, BitVec.ofInt_toInt]

theorem ushiftRight_eq_ofNat (x : BitVec w) (n : ℕ) :
    x >>> n = BitVec.ofNat w (x.toNat / 2 ^ n) := by
  apply BitVec.eq_of_toNat_eq
  have hlt : x.toNat / 2 ^ n < 2 ^ w := (Nat.div_le_self _ _).trans_lt x.isLt
  rw [BitVec.toNat_ushiftRight, Nat.shiftRight_eq_div_pow, BitVec.toNat_ofNat,
    Nat.mod_eq_of_lt hlt]

/-- A logical shift of the sign extension agrees with the logical shift of the
narrow word exactly when no sign bit can move into it. -/
theorem ushiftRight_signExtend_iff (x : BitVec v) (s : ℕ) (hv : 0 < v) (hvw : v < w)
    (hs : s < w) :
    ((x.signExtend w) >>> s).setWidth v = x >>> s ↔ s = 0 ∨ x.msb = false := by
  constructor
  · intro h
    by_contra hne
    obtain ⟨hs0, hmsb⟩ := not_or.mp hne
    -- the lowest bit that the shift fills from the sign extension
    have hi : v - s < v := by omega
    have hbit := congrArg (fun y : BitVec v => y.getLsbD (v - s)) h
    simp only [BitVec.getLsbD_setWidth, BitVec.getLsbD_ushiftRight, hi, decide_true,
      Bool.true_and, BitVec.getLsbD_signExtend] at hbit
    have hge : ¬ s + (v - s) < v := by omega
    have hlt : s + (v - s) < w := by omega
    rw [BitVec.getLsbD_of_ge x _ (by omega)] at hbit
    simp only [hge, hlt, decide_true, Bool.true_and, if_false] at hbit
    exact hmsb hbit
  · rintro (rfl | hmsb)
    · apply BitVec.eq_of_getLsbD_eq
      intro i hi
      have hiw : i < w := hi.trans hvw
      simp only [BitVec.ushiftRight_zero, BitVec.getLsbD_setWidth, BitVec.getLsbD_signExtend,
        hi, hiw, decide_true, Bool.true_and, if_true]
    · apply BitVec.eq_of_getLsbD_eq
      intro i hi
      simp only [BitVec.getLsbD_setWidth, BitVec.getLsbD_ushiftRight, hi, decide_true,
        Bool.true_and, BitVec.getLsbD_signExtend, hmsb]
      by_cases hsi : s + i < v
      · have hsw : s + i < w := hsi.trans hvw
        simp [hsi, hsw]
      · rw [BitVec.getLsbD_of_ge x _ (by omega)]
        simp [hsi]

/-! ## Bit fields -/

/-- Masking `k` bits at offset `s` and shifting them down reads the field
`x / 2 ^ s % 2 ^ k`. -/
theorem toNat_and_shiftRight (x : BitVec w) (s k : ℕ) (h : s + k ≤ w) :
    ((x &&& BitVec.ofNat w ((2 ^ k - 1) * 2 ^ s)) >>> s).toNat = x.toNat / 2 ^ s % 2 ^ k := by
  have hmask : (2 ^ k - 1) * 2 ^ s < 2 ^ w := by
    calc (2 ^ k - 1) * 2 ^ s < 2 ^ k * 2 ^ s :=
          Nat.mul_lt_mul_of_pos_right (Nat.sub_lt (Nat.two_pow_pos k) one_pos) (Nat.two_pow_pos s)
      _ = 2 ^ (s + k) := by rw [Nat.pow_add, Nat.mul_comm]
      _ ≤ 2 ^ w := Nat.pow_le_pow_right (by decide) h
  apply Nat.eq_of_testBit_eq
  intro i
  rw [BitVec.toNat_ushiftRight, BitVec.toNat_and, BitVec.toNat_ofNat, Nat.mod_eq_of_lt hmask,
    Nat.testBit_shiftRight, Nat.testBit_and, Nat.testBit_mul_two_pow, Nat.testBit_two_pow_sub_one,
    Nat.testBit_mod_two_pow, ← Nat.shiftRight_eq_div_pow, Nat.testBit_shiftRight]
  by_cases hik : i < k <;> simp [hik]

/-- Shifting down first and masking afterwards reads the same field. -/
theorem toNat_shiftRight_and (x : BitVec w) (s k : ℕ) (h : k ≤ w) :
    ((x >>> s) &&& BitVec.ofNat w (2 ^ k - 1)).toNat = x.toNat / 2 ^ s % 2 ^ k := by
  have hmask : 2 ^ k - 1 < 2 ^ w :=
    (Nat.sub_lt (Nat.two_pow_pos k) one_pos).trans_le (Nat.pow_le_pow_right (by decide) h)
  apply Nat.eq_of_testBit_eq
  intro i
  rw [BitVec.toNat_and, BitVec.toNat_ushiftRight, BitVec.toNat_ofNat, Nat.mod_eq_of_lt hmask,
    Nat.testBit_and, Nat.testBit_two_pow_sub_one, Nat.testBit_mod_two_pow,
    ← Nat.shiftRight_eq_div_pow]
  by_cases hik : i < k <;> simp [hik]

end FavoriteAssignments.Words
