import FavoriteAssignments.SchmidtSamoa.KeyFiles
import Mathlib.Data.Nat.Prime.Basic

/-! # Key generation

`main` of `keygen.c`. It makes one key and writes it, whatever came out; the seed of the
command line is gone when the first prime is drawn. -/

namespace FavoriteAssignments.SchmidtSamoa

/-- The key and the contents of its two files. -/
structure Keys where
  p : ℕ
  q : ℕ
  n : ℕ
  d : ℤ
  pq : ℤ
  pbfile : List Char
  pvfile : List Char
  deriving DecidableEq

section Main

variable {G : Type} (gmp : Gmp G) (time : ℕ → ℕ)

/-- `randstate_init`. The clock was read once before, for the default of `-s`. -/
def randstate_init (seed : Option ℕ) : Run G := ⟨gmp.randseed_ui (seed.getD (time 0)), 1⟩

/-- `main` with both files open. `seed` is the number after `-s`, where there is one. -/
def keygen (bits iters : ℕ) (seed : Option ℕ) (username : List Char) (random fuel : ℕ) :
    Option Keys := do
  let ((p, q, n), _) ← ss_make_pub gmp time bits iters random fuel (randstate_init gmp time seed)
  let pbfile ← ss_write_pub n username
  let (d, pq) := ss_make_priv p q
  some ⟨p, q, n, d, pq, pbfile, ss_write_priv pq d⟩

end Main

/-! ## Usable keys -/

/-- Two primes, and an exponent that inverts `n`. -/
def Usable (p q n : ℕ) (d : ℤ) : Prop :=
  p ≠ q ∧ d ≠ 0 ∧ n * d ≡ 1 [ZMOD (Nat.lcm (p - 1) (q - 1) : ℕ)]

variable {p q n : ℕ}

theorem not_dvd_pred (hp : p.Prime) : ¬ p ∣ p - 1 := by
  have := hp.two_le
  exact Nat.not_dvd_of_pos_of_lt (by omega) (by omega)

theorem prime_dvd_lcm_iff (hp : p.Prime) (a b : ℕ) : p ∣ Nat.lcm a b ↔ p ∣ a ∨ p ∣ b := by
  constructor
  · intro h
    exact hp.dvd_mul.mp (h.trans (Nat.lcm_dvd_mul a b))
  · intro h
    rcases h with h | h
    · exact h.trans (Nat.dvd_lcm_left a b)
    · exact h.trans (Nat.dvd_lcm_right a b)

/-- `n` has an inverse unless one prime divides the other less one. -/
theorem gcd_lambda_eq_one_iff (hp : p.Prime) (hq : q.Prime) :
    Nat.gcd (p ^ 2 * q) (Nat.lcm (p - 1) (q - 1)) = 1 ↔ ¬ p ∣ q - 1 ∧ ¬ q ∣ p - 1 := by
  have hp1 := not_dvd_pred hp
  have hq1 := not_dvd_pred hq
  calc Nat.Coprime (p ^ 2 * q) (Nat.lcm (p - 1) (q - 1))
      ↔ Nat.Coprime p (Nat.lcm (p - 1) (q - 1)) ∧ Nat.Coprime q (Nat.lcm (p - 1) (q - 1)) := by
        rw [Nat.coprime_mul_iff_left, Nat.coprime_pow_left_iff (by norm_num)]
    _ ↔ ¬ p ∣ q - 1 ∧ ¬ q ∣ p - 1 := by
        rw [hp.coprime_iff_not_dvd, hq.coprime_iff_not_dvd, prime_dvd_lcm_iff hp,
          prime_dvd_lcm_iff hq]
        simp [hp1, hq1]

/-- `mod_inverse` reports a missing inverse as 0, and `ss_make_priv` passes it on. -/
theorem ss_make_priv_no_inverse (hp : 1 ≤ p) (hq : 1 ≤ q)
    (hgcd : Nat.gcd (p ^ 2 * q) (Nat.lcm (p - 1) (q - 1)) ≠ 1) : (ss_make_priv p q).1 = 0 := by
  have hlambda := lambda_eq_lcm (p - 1) (q - 1)
  push_cast [hp, hq] at hlambda
  have hn : (p : ℤ) * p * q = (p ^ 2 * q : ℕ) := by
    push_cast
    ring
  have hne : gcd ((p ^ 2 * q : ℕ) : ℤ) (Nat.lcm (p - 1) (q - 1) : ℕ) ≠ 1 := by
    rw [gcd_eq, Int.gcd_natCast_natCast]
    exact_mod_cast hgcd
  simp only [ss_make_priv, hlambda, hn]
  rw [mod_inverse, if_pos hne]

theorem ss_make_priv_usable_iff (hp : p.Prime) (hq : q.Prime) :
    Usable p q (p * p * q) (ss_make_priv p q).1 ↔ p ≠ q ∧ ¬ p ∣ q - 1 ∧ ¬ q ∣ p - 1 := by
  have hsquare : p * p * q = p ^ 2 * q := by ring
  refine and_congr_right fun hne => ?_
  rw [← gcd_lambda_eq_one_iff hp hq, hsquare]
  constructor
  · intro hinv
    by_contra hgcd
    exact hinv.1 (ss_make_priv_no_inverse hp.one_le hq.one_le hgcd)
  · intro hcop
    obtain ⟨-, -, hinv⟩ := ss_make_priv_spec hp hq hne hcop
    refine ⟨fun hzero => ?_, by rwa [mul_comm]⟩
    have htwo := two_le_lcm hp hq hne
    rw [hzero, zero_mul] at hinv
    have hdvd := Int.le_of_dvd (by norm_num) (Int.modEq_iff_dvd.mp hinv)
    omega

variable {G : Type} {gmp : Gmp G} {time : ℕ → ℕ} {bits iters random fuel : ℕ} {run : Run G}

/-- `keygen` writes the first pair of primes it finds, with no second attempt, and the key
is usable exactly when the primes differ and neither divides the other less one. -/
theorem keygen_usable_iff (seed : Option ℕ) (username : List Char)
    (h : ss_make_pub gmp time bits iters random fuel (randstate_init gmp time seed) =
      some ((p, q, n), run)) (hp : p.Prime) (hq : q.Prime) :
    keygen gmp time bits iters seed username random fuel =
        (ss_write_pub n username).map (fun pbfile => ⟨p, q, n, (ss_make_priv p q).1,
          (ss_make_priv p q).2, pbfile, ss_write_priv (ss_make_priv p q).2 (ss_make_priv p q).1⟩) ∧
      (Usable p q n (ss_make_priv p q).1 ↔ p ≠ q ∧ ¬ p ∣ q - 1 ∧ ¬ q ∣ p - 1) := by
  obtain ⟨-, -, rfl⟩ := ss_make_pub_spec h
  refine ⟨?_, ss_make_priv_usable_iff hp hq⟩
  simp only [keygen, h, Option.bind_eq_bind, Option.bind_some]
  cases ss_write_pub (p * p * q : ℕ) username <;> rfl

/-- What GMP draws first, for four and for three bits and below the numbers drawn, when it
is seeded with 1700000015 or 1700000021. -/
def drawnGmp : Gmp ℕ where
  randseed_ui seed := seed
  rrandomb seed bits :=
    (if bits = 4 ∧ seed = 1700000015 then 13
      else if bits = 4 ∧ seed = 1700000021 then 11
      else if bits = 3 ∧ (seed = 1700000015 ∨ seed = 1700000021) then 5
      else 2 ^ bits - 1, seed)
  urandomm seed n :=
    (if n = 13 ∧ seed = 1700000015 then 10
      else if n = 11 ∧ seed = 1700000021 then 2
      else if n = 5 ∧ (seed = 1700000015 ∨ seed = 1700000021) then 2
      else 0, seed)
  rrandomb_ge seed bits hbits := by
    have hhalf : 2 ^ bits = 2 * 2 ^ (bits - 1) := by
      rw [← Nat.pow_succ', Nat.succ_eq_add_one, Nat.sub_add_cancel hbits]
    have hpos := Nat.two_pow_pos (bits - 1)
    dsimp only
    split_ifs with h1 h2 h3
    · simp [h1.1]
    · simp [h2.1]
    · simp [h3.1]
    · omega
  rrandomb_lt seed bits := by
    have hpos := Nat.two_pow_pos bits
    dsimp only
    split_ifs with h1 h2 h3
    · simp [h1.1]
    · simp [h2.1]
    · simp [h3.1]
    · omega
  urandomm_lt seed n hn := by
    dsimp only
    split_ifs <;> omega

/-- `-b 10 -i 1` with the first number of `random()`, and the clock at 1700000015. -/
theorem usable_pair_drawn :
    ss_make_pub drawnGmp (fun _ => 1700000015) 10 1 1804289383 1
      (randstate_init drawnGmp (fun _ => 1700000015) (some 7)) =
        some ((5, 13, 325), ⟨1700000015, 5⟩) := by
  decide +kernel

/-- The same six seconds later. -/
theorem unusable_pair_drawn :
    ss_make_pub drawnGmp (fun _ => 1700000021) 10 1 1804289383 1
      (randstate_init drawnGmp (fun _ => 1700000021) (some 7)) =
        some ((5, 11, 275), ⟨1700000021, 5⟩) := by
  decide +kernel

theorem keygen_usable_five_thirteen : Usable 5 13 325 (ss_make_priv (5 : ℕ) (13 : ℕ)).1 :=
  (keygen_usable_iff (some 7) [] usable_pair_drawn (by norm_num) (by norm_num)).2.mpr (by decide)

/-- Five divides ten: the private exponent is 0. -/
theorem five_eleven_not_usable :
    (∃ run, ss_make_pub drawnGmp (fun _ => 1700000021) 10 1 1804289383 1
      (randstate_init drawnGmp (fun _ => 1700000021) (some 7)) = some ((5, 11, 275), run)) ∧
      Nat.Prime 5 ∧ Nat.Prime 11 ∧ (ss_make_priv (5 : ℕ) (11 : ℕ)).1 = 0 ∧
      ¬ Usable 5 11 275 (ss_make_priv (5 : ℕ) (11 : ℕ)).1 := by
  have hd : (ss_make_priv (5 : ℕ) (11 : ℕ)).1 = 0 :=
    ss_make_priv_no_inverse (by norm_num) (by norm_num) (by decide)
  exact ⟨⟨_, unusable_pair_drawn⟩, by norm_num, by norm_num, hd, fun h => h.2.1 hd⟩

/-! ## The files of a key -/

/-- The files of a key come back exactly when the modulus has at most 510 digits and the
user name has no conversion character. -/
theorem key_files_round_trip_iff {run' : Run G} (n₀ : ℤ) (username : Username)
    (h : ss_make_pub gmp time bits iters random fuel run = some ((p, q, n), run')) :
    KeyFilesRoundTrip n₀ n (ss_make_priv p q).2 (ss_make_priv p q).1 username.chars ↔
      n < 16 ^ 510 ∧ '%' ∉ username.chars := by
  obtain ⟨hp, hq, rfl⟩ := ss_make_pub_spec h
  exact keyFilesRoundTrip_iff hp hq username

theorem key_files_round_trip_user :
    KeyFilesRoundTrip 0 325 (ss_make_priv (5 : ℕ) (13 : ℕ)).2 (ss_make_priv (5 : ℕ) (13 : ℕ)).1
      ['u', 's', 'e', 'r'] := by
  have hshort : 325 < 16 ^ 510 :=
    calc 325 < 16 ^ 3 := by norm_num
      _ ≤ 16 ^ 510 := by gcongr <;> norm_num
  exact (key_files_round_trip_iff 0
    ⟨['u', 's', 'e', 'r'], by decide, by decide, by decide, by decide⟩
    usable_pair_drawn).mpr ⟨hshort, by decide⟩

/-- `fprintf` makes one per cent sign of two. -/
theorem percent_name_changes :
    (∃ run, ss_make_pub drawnGmp (fun _ => 1700000015) 10 1 1804289383 1
      (randstate_init drawnGmp (fun _ => 1700000015) (some 7)) = some ((5, 13, 325), run)) ∧
      (∃ username : Username, username.chars = ['9', '9', '%', '%']) ∧
      (ss_write_pub 325 ['9', '9', '%', '%']).bind (ss_read_pub 0) = some (325, ['9', '9', '%']) ∧
      ¬ KeyFilesRoundTrip 0 325 (ss_make_priv (5 : ℕ) (13 : ℕ)).2 (ss_make_priv (5 : ℕ) (13 : ℕ)).1
        ['9', '9', '%', '%'] := by
  have hread : (ss_write_pub 325 ['9', '9', '%', '%']).bind (ss_read_pub 0) =
      some (325, ['9', '9', '%']) := by decide +kernel
  refine ⟨⟨_, usable_pair_drawn⟩, ⟨⟨_, by decide, by decide, by decide, by decide⟩, rfl⟩, hread, ?_⟩
  intro hround
  have := hread.symm.trans hround.1
  simp at this

end FavoriteAssignments.SchmidtSamoa
