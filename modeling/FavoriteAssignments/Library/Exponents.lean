import Mathlib.FieldTheory.Finite.Basic
import Mathlib.Data.Int.ModEq

/-! # Exponents congruent to one

Raising to an exponent that is one modulo `p - 1` is the identity modulo the
prime `p`, and so modulo a product of two distinct primes. -/

namespace FavoriteAssignments.Exponents

theorem pow_modEq_self_of_prime {p : ℕ} (hp : p.Prime) {k : ℕ} (hk : 1 ≤ k)
    (hdvd : p - 1 ∣ k - 1) (m : ℤ) : m ^ k ≡ m [ZMOD p] := by
  have : Fact p.Prime := ⟨hp⟩
  rw [← ZMod.intCast_eq_intCast_iff]
  push_cast
  obtain ⟨j, hj⟩ := hdvd
  have hsplit : k = (p - 1) * j + 1 := by omega
  by_cases hzero : (m : ZMod p) = 0
  · rw [hzero, zero_pow (by omega)]
  · rw [hsplit, pow_succ, pow_mul, ZMod.pow_card_sub_one_eq_one hzero, one_pow, one_mul]

/-- Modulo a squarefree product the base need not be coprime to the modulus. -/
theorem pow_modEq_self {p q : ℕ} (hp : p.Prime) (hq : q.Prime) (hne : p ≠ q) {k : ℕ}
    (hk : 1 ≤ k) (hdp : p - 1 ∣ k - 1) (hdq : q - 1 ∣ k - 1) (m : ℤ) :
    m ^ k ≡ m [ZMOD p * q] := by
  have hcop : (p : ℤ).natAbs.Coprime (q : ℤ).natAbs := by
    simpa using (Nat.coprime_primes hp hq).mpr hne
  exact (Int.modEq_and_modEq_iff_modEq_mul hcop).mp
    ⟨pow_modEq_self_of_prime hp hk hdp m, pow_modEq_self_of_prime hq hk hdq m⟩

end FavoriteAssignments.Exponents
