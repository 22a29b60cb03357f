import Mathlib.Data.Int.GCD
import Mathlib.Data.Int.ModEq
import Mathlib.FieldTheory.Finite.Basic

/-! # The strong probable-prime test

A number `n` with `n - 1 = 2 ^ s * r` passes the test to a base if raising the base to `r`
and squaring `s` times meets 1 at once or -1 on the way. A prime passes to every base it
does not divide. -/

namespace FavoriteAssignments.StrongTest

/-- `n` passes to the base `a`. -/
def Passes (n : ℤ) (r s : ℕ) (a : ℤ) : Prop :=
  a ^ r ≡ 1 [ZMOD n] ∨ ∃ j < s, a ^ (2 ^ j * r) ≡ -1 [ZMOD n]

variable {n a : ℤ} {r s : ℕ}

/-- A base with a power that is a unit is a unit. -/
theorem gcd_eq_one_of_pow {k : ℕ} (hk : 0 < k) {u : ℤ} (hu : u = 1 ∨ u = -1)
    (h : a ^ k ≡ u [ZMOD n]) : Int.gcd a n = 1 := by
  have hbase : ((Int.gcd a n : ℕ) : ℤ) ∣ a ^ k :=
    (Int.gcd_dvd_left a n).trans (dvd_pow_self a hk.ne')
  have hmod : ((Int.gcd a n : ℕ) : ℤ) ∣ u - a ^ k :=
    (Int.gcd_dvd_right a n).trans (Int.modEq_iff_dvd.mp h)
  have hunit : ((Int.gcd a n : ℕ) : ℤ) ∣ u := by
    have hsum := dvd_add hmod hbase
    rwa [sub_add_cancel] at hsum
  have hone : ((Int.gcd a n : ℕ) : ℤ) ∣ 1 := by
    rcases hu with rfl | rfl
    · exact hunit
    · exact (dvd_neg).mp hunit
  exact Nat.dvd_one.mp (Int.natCast_dvd_natCast.mp hone)

theorem Passes.gcd_eq_one (hr : 0 < r) (h : Passes n r s a) : Int.gcd a n = 1 := by
  rcases h with hone | ⟨j, -, hminus⟩
  · exact gcd_eq_one_of_pow hr (Or.inl rfl) hone
  · exact gcd_eq_one_of_pow (Nat.mul_pos (Nat.two_pow_pos j) hr) (Or.inr rfl) hminus

/-- Modulo a prime 1 has two square roots. -/
theorem eq_one_or_neg_one_of_sq {p : ℕ} (hp : p.Prime) {x : ℤ} (h : x ^ 2 ≡ 1 [ZMOD p]) :
    x ≡ 1 [ZMOD p] ∨ x ≡ -1 [ZMOD p] := by
  have hdvd : (p : ℤ) ∣ (x - 1) * (x + 1) := by
    have hfactor : x ^ 2 - 1 = (x - 1) * (x + 1) := by ring
    rw [← hfactor]
    exact Int.modEq_iff_dvd.mp h.symm
  rcases (Nat.prime_iff_prime_int.mp hp).dvd_or_dvd hdvd with hleft | hright
  · exact Or.inl (Int.modEq_iff_dvd.mpr hleft).symm
  · exact Or.inr (Int.modEq_iff_dvd.mpr (by simpa using hright)).symm

/-- Taking square roots of 1 meets -1 or ends at 1. -/
theorem passes_of_pow_eq_one {p : ℕ} (hp : p.Prime) (h : a ^ (2 ^ s * r) ≡ 1 [ZMOD p]) :
    Passes p r s a := by
  induction s with
  | zero => exact Or.inl (by simpa using h)
  | succ s ih =>
      have hsquare : (a ^ (2 ^ s * r)) ^ 2 ≡ 1 [ZMOD p] := by
        rwa [← pow_mul, Nat.mul_right_comm, ← Nat.pow_succ]
      rcases eq_one_or_neg_one_of_sq hp hsquare with hone | hminus
      · rcases ih hone with hfirst | ⟨j, hj, hlater⟩
        · exact Or.inl hfirst
        · exact Or.inr ⟨j, Nat.lt_succ_of_lt hj, hlater⟩
      · exact Or.inr ⟨s, Nat.lt_succ_self s, hminus⟩

theorem passes_of_prime {p : ℕ} (hp : p.Prime) (hsplit : p - 1 = 2 ^ s * r) (ha : ¬(p : ℤ) ∣ a) :
    Passes p r s a := by
  have hcop : IsCoprime a p := ((Nat.prime_iff_prime_int.mp hp).coprime_iff_not_dvd.mpr ha).symm
  exact passes_of_pow_eq_one hp (hsplit ▸ Int.ModEq.pow_card_sub_one_eq_one hp hcop)

end FavoriteAssignments.StrongTest
