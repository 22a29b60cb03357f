import FavoriteAssignments.Lz78.BitStream
import FavoriteAssignments.Lz78.Refinement
import Mathlib.Algebra.BigOperators.Intervals
import Mathlib.Tactic.Ring

/-! # Widths

The width of a pair is that of the next code, so it depends on the place of the pair
alone. A code of more than eight bits is written with its low byte repeated. -/

namespace FavoriteAssignments.Lz78

open PhraseDictionary

/-! ## Bit lengths -/

theorem le_bitlenLoop (fuel code len : ℕ) : len ≤ bitlenLoop fuel code len := by
  induction fuel generalizing code len with
  | zero => exact Nat.le_refl len
  | succ fuel ih =>
      rw [bitlenLoop]
      split
      · exact Nat.le_of_succ_le (ih _ (len + 1))
      · exact Nat.le_refl len

theorem bitlenLoop_le_iff {fuel code : ℕ} (h : code < 2 ^ fuel) (len k : ℕ) :
    bitlenLoop fuel code len ≤ len + k ↔ code < 2 ^ k := by
  induction fuel generalizing code len k with
  | zero =>
      have hzero : code = 0 := by simpa using h
      simp [bitlenLoop, hzero]
  | succ fuel ih =>
      rw [bitlenLoop]
      split
      · next hpos =>
          cases k with
          | zero =>
              have := le_bitlenLoop fuel (code >>> 1) (len + 1)
              simp only [Nat.add_zero, Nat.pow_zero]
              omega
          | succ k =>
              have hhalf : code >>> 1 = code / 2 := Nat.shiftRight_one code
              rw [show len + (k + 1) = len + 1 + k by omega,
                ih (by rw [hhalf]; rw [Nat.pow_succ] at h; omega), hhalf, Nat.pow_succ]
              omega
      · next hzero =>
          have : 0 < 2 ^ k := Nat.two_pow_pos k
          constructor <;> intro <;> omega

theorem bitlen_le_iff {code : ℕ} (h : code < 2 ^ 32) (k : ℕ) :
    bitlen code ≤ k ↔ code < 2 ^ k := by
  simpa [bitlen] using bitlenLoop_le_iff h 0 k

theorem lt_two_pow_bitlen {code : ℕ} (h : code < 2 ^ 32) : code < 2 ^ bitlen code :=
  (bitlen_le_iff h _).mp (Nat.le_refl _)

theorem bitlen_eq {code k : ℕ} (hk : k < 32) (hlow : 2 ^ k ≤ code) (hhigh : code < 2 ^ (k + 1)) :
    bitlen code = k + 1 := by
  have hlt : code < 2 ^ 32 :=
    Nat.lt_of_lt_of_le hhigh (Nat.pow_le_pow_right (by decide) (by omega))
  have hle := (bitlen_le_iff hlt (k + 1)).mpr hhigh
  have hnot : ¬ bitlen code ≤ k := by
    rw [bitlen_le_iff hlt]
    omega
  omega

/-! ## The width of a place -/

/-- The width of the pair in place `i`. -/
def width (i : ℕ) : ℕ := bitlen (START_CODE + i % (capacity - 1))

theorem next_code_lt (i : ℕ) : START_CODE + i % (capacity - 1) < MAX_CODE := by
  have : i % (capacity - 1) < capacity - 1 := Nat.mod_lt _ (by decide)
  simp only [START_CODE, MAX_CODE, capacity, EMPTY_CODE] at this ⊢
  omega

theorem lt_two_pow_width {i code : ℕ} (h : code ≤ START_CODE + i % (capacity - 1)) :
    code < 2 ^ width i :=
  Nat.lt_of_le_of_lt h
    (lt_two_pow_bitlen (Nat.lt_trans (next_code_lt i) (by decide)))

theorem width_le (i : ℕ) : width i ≤ 16 :=
  (bitlen_le_iff (Nat.lt_trans (next_code_lt i) (by decide)) 16).mpr
    (Nat.lt_trans (next_code_lt i) (by decide))

/-- The decoder that knows as many words as the place says reads with the width of the place. -/
theorem Knows.bitlen_next_code {d : Decoder} {words : List Word} {i : ℕ} (h : Knows d words)
    (hlength : words.length = 1 + i % (capacity - 1)) : bitlen d.next_code = width i := by
  rw [h.next_code, hlength, width, START_CODE, Nat.add_right_comm]

theorem nextLength_place (i : ℕ) :
    nextLength capacity (1 + i % (capacity - 1)) = 1 + (i + 1) % (capacity - 1) := by
  have hcap : 2 ≤ capacity := by decide
  rw [← nextLength_iterate hcap, ← nextLength_iterate hcap, Function.iterate_succ_apply']

theorem pairsFrom_cons (i : ℕ) (phrase : ℕ × UInt8) (ps : List (ℕ × UInt8)) :
    pairsFrom (1 + i % (capacity - 1)) (phrase :: ps) =
      ⟨phrase.1 + 1, phrase.2, width i⟩ :: pairsFrom (1 + (i + 1) % (capacity - 1)) ps := by
  rw [pairsFrom, nextLength_place, width, START_CODE, Nat.add_right_comm]

/-! ## The length of the stream -/

theorem length_pairBits (width code : ℕ) (sym : UInt8) :
    (pairBits width code sym).length = width + 8 := by
  simp [pairBits, Bits.ofByte]

theorem length_pairsBits (i : ℕ) (ps : List (ℕ × UInt8)) :
    (pairsBits (pairsFrom (1 + i % (capacity - 1)) ps)).length =
      ∑ j ∈ Finset.range ps.length, (width (i + j) + 8) := by
  induction ps generalizing i with
  | nil => rfl
  | cons phrase ps ih =>
      have hrest : ∀ j, i + 1 + j = i + (j + 1) := fun j => by omega
      rw [pairsFrom_cons, pairsBits_cons, List.length_append, length_pairBits, ih,
        List.length_cons, Finset.sum_range_succ', Nat.add_comm]
      simp only [hrest, Nat.add_zero]

theorem sum_bitlen_two_pow {k : ℕ} (hk : k ≤ 32) :
    ∑ code ∈ Finset.range (2 ^ k), bitlen code + 2 ^ k = k * 2 ^ k + 1 := by
  induction k with
  | zero => rfl
  | succ k ih =>
      have htop : ∑ code ∈ Finset.range (2 ^ k), bitlen (2 ^ k + code) = 2 ^ k * (k + 1) := by
        rw [Finset.sum_const_nat (m := k + 1), Finset.card_range]
        intro code hcode
        have := Finset.mem_range.mp hcode
        exact bitlen_eq (by omega) (by omega) (by rw [Nat.pow_succ]; omega)
      have hlow := ih (by omega)
      rw [Nat.pow_succ, Nat.mul_two, Finset.sum_range_add, htop]
      ring_nf at hlow ⊢
      omega

/-- The widths of the codes from two on, up to the last but one of a power of two. -/
theorem sum_bitlen_from_two {k m : ℕ} (hk : 1 < k ∧ k ≤ 32) (hm : 2 ^ k = 2 + m + 1) :
    ∑ j ∈ Finset.range m, bitlen (2 + j) + k + 2 ^ k = k * 2 ^ k := by
  have hall := sum_bitlen_two_pow hk.2
  have hfirst : ∑ code ∈ Finset.range 2, bitlen code = 1 := by decide
  have hlast : bitlen (2 + m) = k := by
    obtain ⟨l, rfl⟩ : ∃ l, k = l + 1 := ⟨k - 1, by omega⟩
    have hlow : 2 ≤ 2 ^ l := Nat.le_self_pow (by omega) 2
    rw [Nat.pow_succ] at hm
    exact bitlen_eq (by omega) (by omega) (by rw [Nat.pow_succ]; omega)
  have hsplit : ∑ code ∈ Finset.range (2 ^ k), bitlen code =
      1 + ∑ j ∈ Finset.range m, bitlen (2 + j) + k := by
    rw [hm, Finset.sum_range_succ, Finset.sum_range_add, hfirst, hlast]
  omega

/-- The pairs of one filling of the dictionary make whole bytes. -/
theorem sum_width_period {m : ℕ} (hm : capacity - 1 = m) :
    (∑ j ∈ Finset.range m, (width j + 8)) % 8 = 0 := by
  have hwidth : ∀ j ∈ Finset.range m, width j = bitlen (2 + j) := by
    intro j hj
    rw [width, hm, Nat.mod_eq_of_lt (Finset.mem_range.mp hj), START_CODE]
  have hcodes := sum_bitlen_from_two (k := 16) (m := m) (by decide) (by rw [← hm]; decide)
  have heights : ∑ j ∈ Finset.range m, 8 = m * 8 := by
    rw [Finset.sum_const_nat fun _ _ => rfl, Finset.card_range]
  rw [Finset.sum_add_distrib, Finset.sum_congr rfl hwidth, heights]
  omega

theorem whole_periods {m n : ℕ} (hm : capacity - 1 = m) (h : n % m = 0) :
    (∑ j ∈ Finset.range n, (width j + 8)) % 8 = 0 := by
  obtain ⟨q, rfl⟩ := Nat.dvd_of_mod_eq_zero h
  induction q with
  | zero => rfl
  | succ q ih =>
      have hperiod : ∀ j, width (m * q + j) = width j := by
        intro j
        rw [width, hm, Nat.mul_add_mod, width, hm]
      rw [Nat.mul_succ, Finset.sum_range_add, Nat.add_mod, ih (Nat.mul_mod_right m q)]
      simp only [hperiod, sum_width_period hm]

/-! ## Codes that survive -/

/-- Of its bits above the eighth, the code has the low ones there too. -/
def Survives (width code : ℕ) : Prop := width ≤ 8 ∨ code / 256 = code % 2 ^ (width - 8)

instance (width code : ℕ) : Decidable (Survives width code) :=
  inferInstanceAs (Decidable (_ ∨ _))

theorem testBit_spread (width code i : ℕ) :
    (spread width code).testBit i = (decide (i < width) && code.testBit (i % 8)) := by
  rw [spread, Bits.testBit_value]
  by_cases hi : i < width <;> simp [hi]

/-- A code is read as written exactly if it survives its width. -/
theorem spread_eq_iff {width code : ℕ} (hwidth : width ≤ 16) (hcode : code < 2 ^ width) :
    spread width code = code ↔ Survives width code := by
  have hhigh : ∀ i, width ≤ i → code.testBit i = false := fun i hi =>
    Nat.testBit_lt_two_pow (Nat.lt_of_lt_of_le hcode (Nat.pow_le_pow_right (by decide) hi))
  have hdiv : ∀ i, (code / 256).testBit i = code.testBit (i + 8) := fun i =>
    Nat.testBit_div_two_pow (n := 8) code i
  constructor
  · intro hspread
    by_cases hsmall : width ≤ 8
    · exact Or.inl hsmall
    · refine Or.inr (Nat.eq_of_testBit_eq fun i => ?_)
      rw [hdiv, Nat.testBit_mod_two_pow]
      by_cases hi : i < width - 8
      · have := testBit_spread width code (i + 8)
        rw [hspread, Nat.add_mod_right, Nat.mod_eq_of_lt (by omega)] at this
        simpa [hi, show i + 8 < width by omega] using this
      · simp [hi, hhigh (i + 8) (by omega)]
  · intro hsurvives
    refine Nat.eq_of_testBit_eq fun i => ?_
    rw [testBit_spread]
    by_cases hi : i < width
    · by_cases hlow : i < 8
      · simp [hi, Nat.mod_eq_of_lt hlow]
      · obtain ⟨j, rfl⟩ : ∃ j, i = j + 8 := ⟨i - 8, by omega⟩
        rcases hsurvives with hsmall | heq
        · omega
        · have hbit := hdiv j
          rw [heq, Nat.testBit_mod_two_pow] at hbit
          rw [← hbit, Nat.add_mod_right, Nat.mod_eq_of_lt (by omega)]
          simp [hi, show j < width - 8 by omega]
    · simp [hi, hhigh i (by omega)]

end FavoriteAssignments.Lz78
