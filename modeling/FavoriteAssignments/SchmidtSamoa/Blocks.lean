import FavoriteAssignments.SchmidtSamoa.RoundTrip

/-! # Blocks

The block sizes that `ss_encrypt_file` and `ss_decrypt_file` compute from the lengths of
their moduli. -/

namespace FavoriteAssignments.SchmidtSamoa

variable {p q : ℕ}

/-- The turns of the loop that bumps a message: it counts up to the first number that is
neither 0 nor 1. -/
theorem bump_turns {m : ℤ} (h0 : 0 ≤ m) :
    ∃ k ≤ 2, bump m = m + (k : ℕ) ∧ ∀ i < k, m + i = 0 ∨ m + i = 1 := by
  by_cases hsmall : m < 2
  · refine ⟨(2 - m).toNat, by omega, ?_, ?_⟩
    · rw [bump_small h0 hsmall]
      omega
    · intro i hi
      omega
  · refine ⟨0, by omega, ?_, by simp⟩
    rw [bump_eq (by omega), Nat.cast_zero, add_zero]

/-- Every block is encrypted as a number that the private modulus holds, whatever its bytes
are and however the bits of the public modulus are split between its primes. -/
theorem message_fits (hp : 2 ≤ p) (hq : 2 ≤ q) (hbs : 1 ≤ encryptBlockSize (p ^ 2 * q))
    (block : List UInt8) (hblock : block.length = encryptBlockSize (p ^ 2 * q)) :
    (1 < bump (mpz_import block) ∧ bump (mpz_import block) < p * q) ∧
      ∃ k ≤ 2, bump (mpz_import block) = mpz_import block + (k : ℕ) ∧
        ∀ i < k, mpz_import block + i = 0 ∨ mpz_import block + i = 1 := by
  obtain ⟨h1, hlt⟩ := bump_import_bounds hbs hblock
  have hle : ((256 ^ encryptBlockSize (p ^ 2 * q) : ℕ) : ℤ) ≤ (p * q : ℕ) :=
    Int.ofNat_le.mpr (encrypt_block_le hp hq)
  refine ⟨⟨h1, ?_⟩, bump_turns (mpz_import_nonneg block)⟩
  calc bump (mpz_import block) < (256 ^ encryptBlockSize (p ^ 2 * q) : ℕ) := hlt
    _ ≤ (p * q : ℕ) := hle
    _ = p * q := by push_cast; rfl

/-- The largest block of one byte, under a modulus of 20 bits. -/
theorem message_fits_one_byte : (1 < bump (mpz_import [0xFF]) ∧ bump (mpz_import [0xFF]) < 64 * 128) ∧
    ∃ k ≤ 2, bump (mpz_import [0xFF]) = mpz_import [0xFF] + (k : ℕ) ∧
      ∀ i < k, mpz_import [0xFF] + i = 0 ∨ mpz_import [0xFF] + i = 1 := by
  have hsize : (64 ^ 2 * 128).size = 20 := size_eq (by norm_num) (by norm_num)
  have hblock : encryptBlockSize (64 ^ 2 * 128) = 1 := by
    rw [encryptBlockSize, sizeinbase2_eq (by norm_num), hsize]
  exact message_fits (p := 64) (q := 128) (by norm_num) (by norm_num) (by rw [hblock]) [0xFF]
    (by rw [hblock]; rfl)

end FavoriteAssignments.SchmidtSamoa
