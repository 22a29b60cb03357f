import Mathlib.Data.Int.ModEq
import Mathlib.Data.Int.GCD
import Mathlib.Algebra.Order.Ring.Abs
import Mathlib.Tactic.Linarith
import Mathlib.Tactic.Ring

/-! # Number theory

The routines of `numtheory.c` on integers, with `mpz_mod` the non-negative
remainder and `mpz_fdiv_q` the quotient rounded down. -/

namespace FavoriteAssignments.SchmidtSamoa

/-- The loop of `pow_mod`. -/
def powModLoop (o base exp n : ℤ) : ℤ :=
  if exp > 0 then
    powModLoop (if exp % 2 = 1 then o * base % n else o) (base * base % n) (exp / 2) n
  else o
termination_by exp.toNat
decreasing_by omega

def pow_mod (a d n : ℤ) : ℤ := powModLoop 1 (a % n) d n

theorem natAbs_emod_lt (a : ℤ) {b : ℤ} (h : b ≠ 0) : (a % b).natAbs < b.natAbs := by
  have h0 := Int.emod_nonneg a h
  have hlt := Int.emod_lt_abs a h
  rw [Int.abs_eq_natAbs] at hlt
  omega

/-- The loop of `gcd`. -/
def gcdLoop (t_a t_b : ℤ) : ℤ :=
  if t_b = 0 then t_a else gcdLoop t_b (t_a % t_b)
termination_by t_b.natAbs
decreasing_by exact natAbs_emod_lt t_a ‹_›

def gcd (a b : ℤ) : ℤ :=
  if |a| < |b| then gcdLoop |b| |a| else gcdLoop |a| |b|

theorem natAbs_sub_fdiv_lt (a : ℤ) {b : ℤ} (h : b ≠ 0) :
    (a - a.fdiv b * b).natAbs < b.natAbs := by
  have hfmod : a - a.fdiv b * b = a.fmod b := by rw [Int.fmod_def, mul_comm]
  have h0 := Int.emod_nonneg a h
  have hlt := natAbs_emod_lt a h
  rw [hfmod, Int.fmod_eq_emod]
  split
  · omega
  · rename_i hneg
    have hpos : a % b ≠ 0 := fun hzero => hneg (Or.inr (Int.dvd_of_emod_eq_zero hzero))
    omega

/-- The loop of `mod_inverse`, ending with `r` and `t`. -/
def modInverseLoop (r r0 t t0 : ℤ) : ℤ × ℤ :=
  if r0 = 0 then (r, t)
  else modInverseLoop r0 (r - r.fdiv r0 * r0) t0 (t - r.fdiv r0 * t0)
termination_by r0.natAbs
decreasing_by exact natAbs_sub_fdiv_lt r ‹_›

def mod_inverse (a n : ℤ) : ℤ :=
  if gcd a n ≠ 1 then 0
  else
    let (r, t) := modInverseLoop n a 0 1
    if r > 1 then 0
    else if t < 0 then t + n
    else t

/-! ## What they compute -/

theorem powModLoop_modEq (o base exp n : ℤ) (hexp : 0 ≤ exp) :
    powModLoop o base exp n ≡ o * base ^ exp.toNat [ZMOD n] := by
  fun_induction powModLoop o base exp n with
  | case1 o base exp hpos ih =>
      have hhalf : exp.toNat = 2 * (exp / 2).toNat + (exp % 2).toNat := by omega
      have hstep : (if exp % 2 = 1 then o * base % n else o) ≡ o * base ^ (exp % 2).toNat
          [ZMOD n] := by
        rcases Int.emod_two_eq_zero_or_one exp with heven | hodd
        · simp [heven, Int.ModEq.refl]
        · simp [hodd, Int.mod_modEq]
      calc powModLoop (if exp % 2 = 1 then o * base % n else o) (base * base % n) (exp / 2) n
          ≡ (if exp % 2 = 1 then o * base % n else o) * (base * base % n) ^ (exp / 2).toNat
            [ZMOD n] := ih (by omega)
        _ ≡ o * base ^ (exp % 2).toNat * (base * base) ^ (exp / 2).toNat [ZMOD n] :=
            hstep.mul ((Int.mod_modEq _ _).pow _)
        _ = o * base ^ exp.toNat := by rw [hhalf, pow_add, pow_mul]; ring
  | case2 o base exp hzero =>
      have hexp0 : exp.toNat = 0 := by omega
      simp [hexp0, Int.ModEq.refl]

theorem powModLoop_reduced (o base exp n : ℤ) (ho : o % n = o) :
    powModLoop o base exp n % n = powModLoop o base exp n := by
  fun_induction powModLoop o base exp n with
  | case1 o base exp hpos ih =>
      apply ih
      split
      · exact Int.emod_emod _ _
      · exact ho
  | case2 o base exp hzero => exact ho

/-- Square and multiply is exponentiation modulo `n`. -/
theorem pow_mod_eq (a : ℤ) {d n : ℤ} (hd : 0 ≤ d) (hn : 1 < n) :
    pow_mod a d n = a ^ d.toNat % n := by
  have hone : (1 : ℤ) % n = 1 := Int.emod_eq_of_lt (by omega) hn
  have hmod : pow_mod a d n ≡ a ^ d.toNat [ZMOD n] := by
    simpa [pow_mod] using (powModLoop_modEq 1 (a % n) d n hd).trans (((Int.mod_modEq a n).pow _).mul_left 1)
  calc pow_mod a d n = pow_mod a d n % n := (powModLoop_reduced 1 (a % n) d n hone).symm
    _ = a ^ d.toNat % n := hmod

/-- A negative exponent is not looped over at all. -/
theorem pow_mod_toNat (a d : ℤ) {n : ℤ} (hn : 1 < n) : pow_mod a d n = a ^ d.toNat % n := by
  by_cases hd : 0 ≤ d
  · exact pow_mod_eq a hd hn
  · have hexp : d.toNat = 0 := by omega
    rw [pow_mod, powModLoop, if_neg (by omega), hexp, pow_zero]
    exact (Int.emod_eq_of_lt (by omega) hn).symm

theorem gcdLoop_eq (t_a t_b : ℤ) (ha : 0 ≤ t_a) (hb : 0 ≤ t_b) :
    gcdLoop t_a t_b = Int.gcd t_a t_b := by
  fun_induction gcdLoop t_a t_b with
  | case1 t_a => simp [ha, abs_of_nonneg]
  | case2 t_a t_b hne ih =>
      rw [ih hb (Int.emod_nonneg _ hne), Int.gcd_comm, Int.gcd_emod]

theorem gcd_eq (a b : ℤ) : gcd a b = Int.gcd a b := by
  unfold gcd
  split
  · rw [gcdLoop_eq _ _ (abs_nonneg b) (abs_nonneg a), Int.gcd_comm]
    simp [Int.gcd, Int.natAbs_abs]
  · rw [gcdLoop_eq _ _ (abs_nonneg a) (abs_nonneg b)]
    simp [Int.gcd, Int.natAbs_abs]

/-- Subtracting a multiple of a number of the other sign adds the sizes. -/
theorem abs_sub_mul_of_opposite {t t0 q : ℤ} (h : t * t0 ≤ 0) (hq : 0 ≤ q) :
    |t - q * t0| = |t| + q * |t0| := by
  rcases lt_trichotomy t0 0 with hneg | hzero | hpos
  · have ht : 0 ≤ t := by nlinarith
    have hmul : q * t0 ≤ 0 := mul_nonpos_of_nonneg_of_nonpos hq hneg.le
    rw [abs_of_nonneg ht, abs_of_neg hneg, abs_of_nonneg (by omega)]
    ring
  · simp [hzero]
  · have ht : t ≤ 0 := by nlinarith
    have hmul : 0 ≤ q * t0 := mul_nonneg hq hpos.le
    rw [abs_of_nonpos ht, abs_of_pos hpos, abs_of_nonpos (by omega)]
    ring

/-- What the loop of `mod_inverse` keeps: both remainders are multiples of `a` modulo `n`
by their coefficients, which alternate in sign and stay below `n`. -/
structure Bezout (a n r r0 t t0 : ℤ) : Prop where
  r_pos : 0 < r
  r0_nonneg : 0 ≤ r0
  r_modEq : r ≡ t * a [ZMOD n]
  r0_modEq : r0 ≡ t0 * a [ZMOD n]
  sign : t * t0 ≤ 0
  size : r * |t0| + r0 * |t| = n
  t_le : |t| ≤ n

theorem Bezout.step {a n r r0 t t0 : ℤ} (h : Bezout a n r r0 t t0) (hr0 : r0 ≠ 0) :
    Bezout a n r0 (r - r.fdiv r0 * r0) t0 (t - r.fdiv r0 * t0) := by
  obtain ⟨h1, h2, h3, h4, h5, h6, h7⟩ := h
  have hpos : 0 < r0 := by omega
  have hq : 0 ≤ r.fdiv r0 := Int.fdiv_nonneg h1.le h2
  refine ⟨hpos, ?_, h4, ?_, ?_, ?_, ?_⟩
  · have hfmod : r - r.fdiv r0 * r0 = r.fmod r0 := by rw [Int.fmod_def, mul_comm]
    rw [hfmod]
    exact Int.fmod_nonneg h1.le h2
  · have := h3.sub (h4.mul_left (r.fdiv r0))
    calc r - r.fdiv r0 * r0 ≡ t * a - r.fdiv r0 * (t0 * a) [ZMOD n] := this
      _ = (t - r.fdiv r0 * t0) * a := by ring
  · nlinarith [mul_nonneg hq (mul_self_nonneg t0)]
  · rw [abs_sub_mul_of_opposite h5 hq, ← h6]
    ring
  · have hle : 1 * |t0| ≤ r * |t0| := mul_le_mul_of_nonneg_right h1 (abs_nonneg t0)
    have hrest : 0 ≤ r0 * |t| := mul_nonneg h2 (abs_nonneg t)
    linarith

theorem modInverseLoop_spec {a n : ℤ} (r r0 t t0 : ℤ) (h : Bezout a n r r0 t t0) :
    (modInverseLoop r r0 t t0).1 = Int.gcd r r0 ∧
      (modInverseLoop r r0 t t0).1 ≡ (modInverseLoop r r0 t t0).2 * a [ZMOD n] ∧
      |(modInverseLoop r r0 t t0).2| ≤ n := by
  fun_induction modInverseLoop r r0 t t0 with
  | case1 r t t0 => exact ⟨by simp [h.r_pos.le, abs_of_nonneg], h.r_modEq, h.t_le⟩
  | case2 r r0 t t0 hne ih =>
      obtain ⟨hgcd, hrest⟩ := ih (h.step hne)
      exact ⟨by rw [hgcd, Int.gcd_comm, Int.gcd_sub_mul_right_left], hrest⟩

theorem Bezout.start {a n : ℤ} (ha : 0 < a) (hn : 0 < n) : Bezout a n n a 0 1 :=
  ⟨hn, ha.le, by simp [Int.modEq_iff_dvd], by simp [Int.ModEq.refl], by simp, by simp,
    by simpa using hn.le⟩

/-- Whether or not there is an inverse, the result does not exceed the modulus. -/
theorem mod_inverse_bounds {a n : ℤ} (ha : 0 < a) (hn : 0 < n) :
    0 ≤ mod_inverse a n ∧ mod_inverse a n ≤ n := by
  obtain ⟨-, -, ht⟩ := modInverseLoop_spec n a 0 1 (.start ha hn)
  have habs := abs_le.mp ht
  unfold mod_inverse
  split
  · exact ⟨le_rfl, hn.le⟩
  · simp only
    split
    · exact ⟨le_rfl, hn.le⟩
    · split <;> omega

/-- The extended Euclid of `mod_inverse` finds the inverse, in the range of the modulus. -/
theorem mod_inverse_spec {a n : ℤ} (ha : 0 < a) (hn : 1 < n) (hgcd : Int.gcd a n = 1) :
    0 ≤ mod_inverse a n ∧ mod_inverse a n * a ≡ 1 [ZMOD n] := by
  obtain ⟨h1, h2, h3⟩ := modInverseLoop_spec n a 0 1 (.start ha (by omega))
  rw [Int.gcd_comm, hgcd] at h1
  rw [h1] at h2
  have habs := abs_le.mp h3
  unfold mod_inverse
  rw [gcd_eq, hgcd, if_neg (by simp)]
  simp only [h1]
  rw [if_neg (by simp)]
  split
  · refine ⟨by omega, ?_⟩
    rw [add_mul]
    exact (Int.add_modEq_left_iff.mpr (dvd_mul_right n a)).trans h2.symm
  · exact ⟨by omega, h2.symm⟩

/-- An inverse is neither 0 nor the modulus. -/
theorem mod_inverse_range {a n : ℤ} (ha : 0 < a) (hn : 1 < n) (hgcd : Int.gcd a n = 1) :
    0 < mod_inverse a n ∧ mod_inverse a n < n := by
  obtain ⟨h0, hle⟩ := mod_inverse_bounds ha (by omega : 0 < n)
  obtain ⟨-, hinv⟩ := mod_inverse_spec ha hn hgcd
  have hnot : ¬n ∣ mod_inverse a n := by
    intro hdvd
    have hone : n ∣ 1 := by
      have hsum := dvd_add (Int.modEq_iff_dvd.mp hinv) (hdvd.mul_right a)
      rwa [sub_add_cancel] at hsum
    exact absurd (Int.le_of_dvd Int.one_pos hone) hn.not_ge
  refine ⟨lt_of_le_of_ne h0 ?_, lt_of_le_of_ne hle ?_⟩
  · intro heq
    exact hnot (heq ▸ dvd_zero n)
  · intro heq
    exact hnot (dvd_of_eq heq.symm)

/-- `mod_inverse` gives 0 exactly where there is no inverse, and else the one in the range of
the modulus; `gcd` gives the greatest common divisor of the absolute values. -/
theorem mod_inverse_gcd_spec :
    (∀ a n : ℤ, 0 ≤ a → 2 ≤ n → (mod_inverse a n = 0 ↔ Int.gcd a n ≠ 1) ∧
      (Int.gcd a n = 1 → 0 < mod_inverse a n ∧ mod_inverse a n < n ∧
        a * mod_inverse a n ≡ 1 [ZMOD n])) ∧
    ∀ a b : ℤ, gcd a b = Nat.gcd a.natAbs b.natAbs := by
  refine ⟨?_, gcd_eq⟩
  intro a n ha hn
  by_cases hgcd : Int.gcd a n = 1
  · have hpos : 0 < a := by
      refine lt_of_le_of_ne ha ?_
      rintro rfl
      rw [Int.gcd_zero_left] at hgcd
      omega
    obtain ⟨h0, hlt⟩ := mod_inverse_range hpos hn hgcd
    refine ⟨iff_of_false h0.ne' (not_not.mpr hgcd), fun _ => ⟨h0, hlt, ?_⟩⟩
    rw [mul_comm]
    exact (mod_inverse_spec hpos hn hgcd).2
  · refine ⟨iff_of_true ?_ hgcd, fun h => absurd h hgcd⟩
    rw [mod_inverse, if_pos]
    rw [gcd_eq]
    exact_mod_cast hgcd

/-- The inverse of a number above its modulus, a number without one, and a negative number. -/
theorem mod_inverse_gcd_spec_small :
    (0 < mod_inverse 10 7 ∧ mod_inverse 10 7 < 7 ∧ 10 * mod_inverse 10 7 ≡ 1 [ZMOD 7]) ∧
      mod_inverse 6 9 = 0 ∧ gcd (-12) 18 = 6 := by
  obtain ⟨hinverse, hgcd⟩ := mod_inverse_gcd_spec
  refine ⟨(hinverse 10 7 (by decide) (by decide)).2 (by decide), ?_, hgcd (-12) 18⟩
  exact (hinverse 6 9 (by decide) (by decide)).1.mpr (by decide)

end FavoriteAssignments.SchmidtSamoa
