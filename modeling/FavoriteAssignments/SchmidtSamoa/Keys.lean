import FavoriteAssignments.SchmidtSamoa.Numtheory
import FavoriteAssignments.Library.Exponents

/-! # Keys

Key derivation, encryption and decryption of one number, as in `ss.c`. A number
below `pq` survives encryption modulo `n = p²q` followed by decryption modulo
`pq`. -/

namespace FavoriteAssignments.SchmidtSamoa

/-- The private exponent `d` and the private modulus `pq`. -/
def ss_make_priv (p q : ℤ) : ℤ × ℤ :=
  let pq := p * q
  let n := p * p * q
  let p_sub_1 := p - 1
  let q_sub_1 := q - 1
  let gcd_divisor := gcd p_sub_1 q_sub_1
  let lambda := p_sub_1.fdiv gcd_divisor * q_sub_1
  let d := mod_inverse n lambda
  (d, pq)

def ss_encrypt (m n : ℤ) : ℤ := pow_mod m n n

def ss_decrypt (c d pq : ℤ) : ℤ := pow_mod c d pq

/-! ## Inversion -/

variable {p q : ℕ}

/-- Dividing by the greatest common divisor makes `lambda` the least common multiple. -/
theorem lambda_eq_lcm (a b : ℕ) :
    (a : ℤ).fdiv (gcd a b) * b = (Nat.lcm a b : ℕ) := by
  have hgcd : Int.gcd (a : ℤ) (b : ℤ) = Nat.gcd a b := rfl
  rw [gcd_eq, hgcd, Int.fdiv_eq_ediv_of_nonneg _ (Int.natCast_nonneg _)]
  norm_cast
  rw [Nat.lcm_eq_mul_div, Nat.div_mul_right_comm (Nat.gcd_dvd_left a b)]

theorem two_le_lcm (hp : p.Prime) (hq : q.Prime) (hne : p ≠ q) :
    2 ≤ Nat.lcm (p - 1) (q - 1) := by
  have hp2 := hp.two_le
  have hq2 := hq.two_le
  have hpos : 0 < Nat.lcm (p - 1) (q - 1) := Nat.lcm_pos (by omega) (by omega)
  have hlp := Nat.le_of_dvd hpos (Nat.dvd_lcm_left (p - 1) (q - 1))
  have hlq := Nat.le_of_dvd hpos (Nat.dvd_lcm_right (p - 1) (q - 1))
  omega

/-- The exponent a message has been raised to in the end. -/
theorem exponent_of_inverse (hp : p.Prime) (hq : q.Prime) (hne : p ≠ q) {d : ℤ} (hd : 0 ≤ d)
    (hinv : d * (p ^ 2 * q : ℕ) ≡ 1 [ZMOD (Nat.lcm (p - 1) (q - 1) : ℕ)]) :
    1 ≤ p ^ 2 * q * d.toNat ∧ Nat.lcm (p - 1) (q - 1) ∣ p ^ 2 * q * d.toNat - 1 := by
  have hlcm := two_le_lcm hp hq hne
  have hcast : d * (p ^ 2 * q : ℕ) = (p ^ 2 * q * d.toNat : ℕ) := by
    push_cast
    rw [Int.toNat_of_nonneg hd]
    ring
  rw [hcast] at hinv
  have hpos : 1 ≤ p ^ 2 * q * d.toNat := by
    by_contra hzero
    have hz : p ^ 2 * q * d.toNat = 0 := by omega
    rw [hz] at hinv
    have hdvd := Int.modEq_iff_dvd.mp hinv
    have := Int.le_of_dvd (by norm_num) hdvd
    omega
  refine ⟨hpos, ?_⟩
  have hdvd := Int.modEq_iff_dvd.mp hinv.symm
  apply Int.natCast_dvd_natCast.mp
  rw [Nat.cast_sub hpos, Nat.cast_one]
  exact hdvd

/-- A key that inverts `n` modulo the least common multiple decrypts. -/
theorem decrypt_encrypt_of_inverse (hp : p.Prime) (hq : q.Prime) (hne : p ≠ q) {d : ℤ}
    (hd : 0 ≤ d)
    (hinv : d * (p ^ 2 * q : ℕ) ≡ 1 [ZMOD (Nat.lcm (p - 1) (q - 1) : ℕ)]) {m : ℤ} (hm : 0 ≤ m)
    (hlt : m < (p * q : ℕ)) :
    ss_decrypt (ss_encrypt m (p ^ 2 * q : ℕ)) d (p * q : ℕ) = m := by
  obtain ⟨hpos, hdvd⟩ := exponent_of_inverse hp hq hne hd hinv
  have hpq : 1 < p * q := Nat.one_lt_mul_iff.mpr ⟨hp.pos, hq.pos, Or.inl hp.one_lt⟩
  have hn : 1 < p ^ 2 * q := by
    have hle : 1 * (p * q) ≤ p * (p * q) := Nat.mul_le_mul_right _ hp.pos
    have heq : p ^ 2 * q = p * (p * q) := by ring
    omega
  have hmod : ((p * q : ℕ) : ℤ) ∣ (p ^ 2 * q : ℕ) := by
    exact Int.natCast_dvd_natCast.mpr ⟨p, by ring⟩
  have hexp : m ^ (p ^ 2 * q * d.toNat) ≡ m [ZMOD (p * q : ℕ)] := by
    push_cast
    exact Exponents.pow_modEq_self hp hq hne hpos
      ((Nat.dvd_lcm_left _ _).trans hdvd) ((Nat.dvd_lcm_right _ _).trans hdvd) m
  have hcrypt : ss_encrypt m (p ^ 2 * q : ℕ) ≡ m ^ (p ^ 2 * q) [ZMOD (p * q : ℕ)] := by
    rw [ss_encrypt, pow_mod_eq m (Int.natCast_nonneg _) (by exact_mod_cast hn), Int.toNat_natCast]
    exact (Int.mod_modEq _ _).of_dvd hmod
  calc ss_decrypt (ss_encrypt m (p ^ 2 * q : ℕ)) d (p * q : ℕ)
      = ss_encrypt m (p ^ 2 * q : ℕ) ^ d.toNat % (p * q : ℕ) :=
        pow_mod_eq _ hd (by exact_mod_cast hpq)
    _ = m ^ (p ^ 2 * q * d.toNat) % (p * q : ℕ) := by
        rw [pow_mul]
        exact hcrypt.pow _
    _ = m % (p * q : ℕ) := hexp
    _ = m := Int.emod_eq_of_lt hm hlt

/-- The private exponent of `ss_make_priv` inverts `n`. -/
theorem ss_make_priv_spec (hp : p.Prime) (hq : q.Prime) (hne : p ≠ q)
    (hcop : Nat.gcd (p ^ 2 * q) (Nat.lcm (p - 1) (q - 1)) = 1) :
    (ss_make_priv p q).2 = (p * q : ℕ) ∧ 0 ≤ (ss_make_priv p q).1 ∧
      (ss_make_priv p q).1 * (p ^ 2 * q : ℕ) ≡ 1 [ZMOD (Nat.lcm (p - 1) (q - 1) : ℕ)] := by
  have hlambda := lambda_eq_lcm (p - 1) (q - 1)
  push_cast [hp.one_le, hq.one_le] at hlambda
  have hn : (p : ℤ) * p * q = (p ^ 2 * q : ℕ) := by
    push_cast
    ring
  have hpos : 0 < p ^ 2 * q := Nat.mul_pos (pow_pos hp.pos 2) hq.pos
  have hlcm := two_le_lcm hp hq hne
  have hd := mod_inverse_spec (a := (p ^ 2 * q : ℕ)) (n := (Nat.lcm (p - 1) (q - 1) : ℕ))
    (by exact_mod_cast hpos) (by exact_mod_cast hlcm) hcop
  refine ⟨by simp [ss_make_priv], ?_⟩
  simp only [ss_make_priv, hlambda, hn]
  exact hd

/-- Also where `n` has no inverse, the private exponent does not exceed the private modulus. -/
theorem ss_make_priv_bounds (hp : 2 ≤ p) (hq : 2 ≤ q) :
    (ss_make_priv p q).2 = (p * q : ℕ) ∧ 0 ≤ (ss_make_priv p q).1 ∧
      (ss_make_priv p q).1 ≤ (p * q : ℕ) := by
  have hlambda := lambda_eq_lcm (p - 1) (q - 1)
  push_cast [show 1 ≤ p by omega, show 1 ≤ q by omega] at hlambda
  have hn : (0 : ℤ) < p * p * q := by positivity
  have hpos : 0 < Nat.lcm (p - 1) (q - 1) := Nat.lcm_pos (by omega) (by omega)
  have hle : Nat.lcm (p - 1) (q - 1) ≤ p * q :=
    calc Nat.lcm (p - 1) (q - 1) ≤ (p - 1) * (q - 1) :=
          Nat.le_of_dvd (Nat.mul_pos (by omega) (by omega)) (Nat.lcm_dvd_mul _ _)
      _ ≤ p * q := Nat.mul_le_mul (Nat.sub_le p 1) (Nat.sub_le q 1)
  obtain ⟨h0, hd⟩ := mod_inverse_bounds hn (by exact_mod_cast hpos : (0 : ℤ) < Nat.lcm (p - 1) (q - 1))
  refine ⟨by simp [ss_make_priv], ?_⟩
  simp only [ss_make_priv, hlambda]
  exact ⟨h0, hd.trans (by exact_mod_cast hle)⟩

/-- Every number below `pq` survives encryption and decryption, also one divisible by
`p` or `q`. -/
theorem ss_decrypt_ss_encrypt (hp : p.Prime) (hq : q.Prime) (hne : p ≠ q)
    (hcop : Nat.gcd (p ^ 2 * q) (Nat.lcm (p - 1) (q - 1)) = 1) {m : ℤ} (hm : 0 ≤ m) (hlt : m < p * q) :
    ss_decrypt (ss_encrypt m (p ^ 2 * q)) (ss_make_priv p q).1 (ss_make_priv p q).2 = m := by
  obtain ⟨hpq, hd, hinv⟩ := ss_make_priv_spec hp hq hne hcop
  have h := decrypt_encrypt_of_inverse hp hq hne hd hinv hm (by exact_mod_cast hlt)
  rw [hpq]
  exact_mod_cast h

/-- A message divisible by one of the primes. -/
theorem ss_decrypt_ss_encrypt_six :
    ss_decrypt (ss_encrypt 6 (3 ^ 2 * 5)) (ss_make_priv 3 5).1 (ss_make_priv 3 5).2 = 6 :=
  ss_decrypt_ss_encrypt (p := 3) (q := 5) Nat.prime_three Nat.prime_five (by decide)
    (by decide) (by norm_num) (by norm_num)

end FavoriteAssignments.SchmidtSamoa
