import FavoriteAssignments.SchmidtSamoa.Keygen
import Mathlib.Algebra.Order.Field.Basic

/-! # The size of a key

How many bits the public modulus of `ss_make_pub` has. The bits of the primes add up to those
that were asked for; the bits of a product of three numbers may be two fewer. -/

namespace FavoriteAssignments.SchmidtSamoa

/-- The bits of `p`. -/
def pits (nbits random : ℕ) : ℕ := random % (nbits / 5) + nbits / 5

/-- The bits of `q`. -/
def qits (nbits random : ℕ) : ℕ := nbits - 2 * pits nbits random

/-- What `ss.h` promises of the modulus: there are bits left for `q`, the subtraction does not
wrap, and `n` has the minimum of bits. -/
structure KeepsMinimum (nbits random p q : ℕ) : Prop where
  no_wrap : 2 * pits nbits random ≤ nbits
  qits_pos : 1 ≤ qits nbits random
  minimum : nbits ≤ (p * p * q).size

/-- A number over its leading power of two. -/
def significand (p : ℕ) : ℚ := p / 2 ^ (p.size - 1)

variable {nbits random p q : ℕ}

/-- A number has a bit length other than 0 exactly between two powers of two. -/
theorem size_eq_iff {k : ℕ} (hk : 1 ≤ k) : p.size = k ↔ 2 ^ (k - 1) ≤ p ∧ p < 2 ^ k := by
  rw [← Nat.lt_size, ← Nat.size_le]
  omega

/-- The product of the leading powers of the primes is two places below the top bit that the
modulus should have. -/
theorem leading_powers (hbits : nbits / 5 ≠ 0) (random : ℕ) :
    2 ^ (nbits - 3) = (2 ^ (pits nbits random - 1)) ^ 2 * 2 ^ (qits nbits random - 1) := by
  have hlt := Nat.mod_lt random (Nat.pos_of_ne_zero hbits)
  rw [← pow_mul, ← pow_add]
  congr 1
  simp only [qits, pits]
  omega

/-- The modulus of two primes of the sizes of `ss_make_pub` lacks two bits at most. -/
theorem modulus_size (hbits : nbits / 5 ≠ 0) (hp : p.size = pits nbits random)
    (hq : q.size = qits nbits random) :
    nbits - 2 ≤ (p * p * q).size ∧ (p * p * q).size ≤ nbits := by
  obtain ⟨hpits, hqits⟩ := pits_qits hbits random
  obtain ⟨hplow, hphigh⟩ := (size_eq_iff (by rw [pits]; omega)).mp hp
  obtain ⟨hqlow, hqhigh⟩ := (size_eq_iff (by rw [qits, pits]; omega)).mp hq
  constructor
  · have hlow : 2 ^ (nbits - 3) ≤ p * p * q := by
      rw [leading_powers hbits random, sq]
      gcongr
    have := Nat.lt_size.mpr hlow
    omega
  · rw [Nat.size_le]
    calc p * p * q < 2 ^ pits nbits random * 2 ^ pits nbits random * 2 ^ qits nbits random := by
          gcongr
      _ = 2 ^ nbits := by
          rw [← pow_add, ← pow_add]
          congr 1
          rw [qits]
          simp only [pits]
          omega

/-- The modulus has its minimum of bits exactly when the significands of the primes make up for
the bits that their leading powers lack. -/
theorem keeps_minimum_iff (hbits : 10 ≤ nbits) (random : ℕ) (hp : p.size = pits nbits random)
    (hq : q.size = qits nbits random) :
    KeepsMinimum nbits random p q ↔ 4 ≤ significand p ^ 2 * significand q := by
  have hfifth : nbits / 5 ≠ 0 := by omega
  have hsizes := pits_qits hfifth random
  have hlead := leading_powers hfifth random
  have hsignificands : significand p ^ 2 * significand q =
      (p * p * q : ℕ) / (2 ^ (nbits - 3) : ℕ) := by
    rw [significand, significand, hp, hq, hlead]
    push_cast
    rw [div_pow, div_mul_div_comm, sq]
  have hpow : (0 : ℚ) < (2 ^ (nbits - 3) : ℕ) := by positivity
  have hminimum : nbits ≤ (p * p * q).size ↔ 4 * 2 ^ (nbits - 3) ≤ p * p * q := by
    have hfour : 4 * 2 ^ (nbits - 3) = 2 ^ (nbits - 1) := by
      rw [show nbits - 1 = nbits - 3 + 2 by omega, pow_add, mul_comm, show 2 ^ 2 = 4 by norm_num]
    rw [hfour, ← Nat.lt_size]
    omega
  rw [hsignificands, le_div_iff₀ hpow]
  constructor
  · intro h
    exact_mod_cast hminimum.mp h.minimum
  · intro h
    refine ⟨?_, ?_, hminimum.mpr (by exact_mod_cast h)⟩
    · rw [pits]
      omega
    · rw [qits, pits]
      omega

theorem keeps_minimum_three_sixty_one : KeepsMinimum 10 0 3 61 := by
  have hp : (3 : ℕ).size = 2 := by decide
  have hq : (61 : ℕ).size = 6 := by decide
  refine (keeps_minimum_iff (by norm_num) 0 hp hq).mpr ?_
  rw [significand, significand, hp, hq]
  norm_num

/-! ## The primes of a key -/

section Found

variable {G : Type*} {gmp : Gmp G} {time : ℕ → ℕ} {bits iters fuel n : ℕ} {run run' : Run G}

/-- `make_prime` sets the top bit. -/
theorem primeLoop_size (h : primeLoop gmp time bits iters fuel run = some (p, run'))
    (hbits : 0 < bits) : p.size = bits := by
  refine (size_eq_iff hbits).mpr ⟨?_, (primeLoop_spec h hbits).2⟩
  induction fuel generalizing run with
  | zero => simp [primeLoop] at h
  | succ fuel ih =>
      simp only [primeLoop] at h
      split at h
      · simp only [Option.some.injEq, Prod.mk.injEq] at h
        obtain ⟨rfl, -⟩ := h
        exact Nat.right_le_or
      · exact ih h

/-- The primes have exactly the bits that were drawn for them. -/
theorem ss_make_pub_sizes
    (h : ss_make_pub gmp time nbits iters random fuel run = some ((p, q, n), run')) :
    nbits / 5 ≠ 0 ∧ p.size = pits nbits random ∧ q.size = qits nbits random ∧ n = p * p * q := by
  obtain ⟨hbits, hn, mid, hq, hp⟩ := ss_make_pub_cases h
  have hsizes := pits_qits hbits random
  have hpits : 0 < pits nbits random := by
    rw [pits]
    omega
  have hqits : 0 < qits nbits random := by
    rw [qits, pits]
    omega
  exact ⟨hbits, primeLoop_size hp hpits, primeLoop_size hq hqits, hn⟩

/-- Five, five and thirteen have ten bits together, and their product has nine. -/
theorem nine_bits_of_ten :
    (∃ run, ss_make_pub drawnGmp (fun _ => 1700000015) 10 1 1804289383 1
      (randstate_init drawnGmp (fun _ => 1700000015) (some 7)) = some ((5, 13, 325), run)) ∧
      ¬ ∀ nbits random p q : ℕ, 10 ≤ nbits → p.size = pits nbits random →
        q.size = qits nbits random → KeepsMinimum nbits random p q := by
  refine ⟨⟨_, usable_pair_drawn⟩, ?_⟩
  intro h
  have hminimum := (h 10 1804289383 5 13 (by norm_num) (by decide) (by decide)).minimum
  revert hminimum
  decide

end Found

end FavoriteAssignments.SchmidtSamoa
