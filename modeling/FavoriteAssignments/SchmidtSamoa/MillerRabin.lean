import FavoriteAssignments.Library.StrongTest
import FavoriteAssignments.SchmidtSamoa.Primes
import Mathlib.Tactic.NormNum.Prime

/-! # The rounds of the primality test

One turn of the loop of `is_prime` is a round of the strong test, so no prime is rejected.
What an accepted number has passed depends on the bases that were drawn. -/

namespace FavoriteAssignments.SchmidtSamoa

open StrongTest

/-! ## One round -/

/-- Halving takes out the power of two. -/
theorem halveLoop_eq {r : ℕ} (hr : r % 2 = 1) (s k : ℕ) :
    halveLoop (2 ^ s * r) k = ((r : ℤ), s + k) := by
  induction s generalizing k with
  | zero =>
      rw [halveLoop, if_neg (by omega)]
      simp
  | succ s ih =>
      have hpos : (0 : ℤ) < 2 ^ s * r := by
        have : (0 : ℤ) < r := by omega
        positivity
      have htwice : (2 : ℤ) ^ (s + 1) * r = 2 * (2 ^ s * r) := by ring
      rw [halveLoop, htwice, if_pos (by omega), Int.mul_ediv_cancel_left _ (by norm_num), ih]
      congr 1
      omega

/-- The number that `is_prime` compares with stands for -1. -/
theorem eq_pred_iff {n y : ℤ} (hn : 1 < n) (hy : y % n = y) : y = n - 1 ↔ y ≡ -1 [ZMOD n] := by
  have hminus : (-1) % n = n - 1 := by
    rw [← Int.add_mul_emod_self_left (-1) n 1, mul_one, Int.emod_eq_of_lt (by omega) (by omega)]
    ring
  rw [Int.ModEq, hy, hminus]

/-- Powers of a reduced power. -/
theorem emod_pow_iff (x u n : ℤ) (i j : ℕ) :
    (x ^ i % n) ^ j ≡ u [ZMOD n] ↔ x ^ (i * j) ≡ u [ZMOD n] := by
  have hpow : (x ^ i % n) ^ j ≡ x ^ (i * j) [ZMOD n] := by
    rw [pow_mul]
    exact (Int.mod_modEq _ _).pow _
  exact ⟨hpow.symm.trans, hpow.trans⟩

theorem squareLoop_iff {n y : ℤ} {s : ℕ} (hn : 1 < n) (hy : y % n = y) :
    squareLoop n (n - 1) s y = true ↔ ∃ j < s, y ^ 2 ^ j ≡ -1 [ZMOD n] := by
  induction s generalizing y with
  | zero => simp [squareLoop]
  | succ s ih =>
      have hsquare : pow_mod y 2 n = y ^ 2 % n := pow_mod_eq y (by norm_num) hn
      have hlater : ∀ j, (y ^ 2 % n) ^ 2 ^ j ≡ -1 [ZMOD n] ↔ y ^ 2 ^ (j + 1) ≡ -1 [ZMOD n] := by
        intro j
        rw [emod_pow_iff, ← pow_succ']
      rw [squareLoop]
      split_ifs with hfirst
      · rw [eq_pred_iff hn hy] at hfirst
        exact iff_of_true rfl ⟨0, Nat.succ_pos s, by simpa using hfirst⟩
      · rw [eq_pred_iff hn hy] at hfirst
        rw [hsquare, ih (Int.emod_emod _ _)]
        constructor
        · rintro ⟨j, hj, hmeets⟩
          exact ⟨j + 1, Nat.succ_lt_succ hj, (hlater j).mp hmeets⟩
        · rintro ⟨j, hj, hmeets⟩
          cases j with
          | zero => exact absurd (by simpa using hmeets) hfirst
          | succ j => exact ⟨j, Nat.lt_of_succ_lt_succ hj, (hlater j).mpr hmeets⟩

/-- A round that draws a base between 2 and `n - 2` is one of the strong test; the check of
the greatest common divisor adds nothing. -/
theorem passes_iff {n a : ℤ} {r s : ℕ} (hn : 3 ≤ n) (hr : r % 2 = 1) (ha : 2 ≤ a) (hle : a ≤ n - 2) :
    passes n (n - 1) r s a = true ↔ Passes n r s a := by
  have hn1 : 1 < n := by omega
  have hpow : pow_mod a r n = a ^ r % n := by
    rw [pow_mod_eq a (Int.natCast_nonneg r) hn1, Int.toNat_natCast]
  have hone : a ^ r % n = 1 ↔ a ^ r ≡ 1 [ZMOD n] := by
    rw [Int.ModEq, Int.emod_eq_of_lt (by norm_num : (0 : ℤ) ≤ 1) hn1]
  have hlater : ∀ j, (a ^ r % n) ^ 2 ^ j ≡ -1 [ZMOD n] ↔ a ^ (2 ^ j * r) ≡ -1 [ZMOD n] := by
    intro j
    rw [emod_pow_iff, mul_comm]
  have hround : (decide (a ^ r % n = 1) || squareLoop n (n - 1) s (a ^ r % n)) = true ↔
      Passes n r s a := by
    rw [Bool.or_eq_true, decide_eq_true_iff, hone, squareLoop_iff hn1 (Int.emod_emod _ _)]
    simp only [hlater, Passes]
  rw [passes, if_neg (by omega), hpow, Bool.and_eq_true, hround, decide_eq_true_iff, gcd_eq]
  refine and_iff_left_of_imp fun hpasses => ?_
  rw [hpasses.gcd_eq_one (by omega)]
  rfl

/-! ## All rounds -/

variable {G : Type*} (gmp : Gmp G) (time : ℕ → ℕ)

/-- The base of the round before which `time` has been called so many times. -/
def drawn (n : ℤ) (readings : ℕ) : ℕ :=
  (gmp.urandomm (gmp.randseed_ui (time readings)) n.toNat).1

theorem basesLoop_iff {n d r : ℤ} {s iters readings : ℕ} :
    (basesLoop gmp time n d r s iters readings).1 = true ↔
      ∀ i < iters, passes n d r s (drawn gmp time n (readings + i)) = true := by
  induction iters generalizing readings with
  | zero => simp [basesLoop]
  | succ iters ih =>
      have hsplit : (∀ i < iters + 1, passes n d r s (drawn gmp time n (readings + i)) = true) ↔
          passes n d r s (drawn gmp time n readings) = true ∧
            ∀ i < iters, passes n d r s (drawn gmp time n (readings + 1 + i)) = true := by
        rw [Nat.forall_lt_succ_left]
        simp only [Nat.add_zero, Nat.add_right_comm readings, ← Nat.add_assoc]
      have hstep : basesLoop gmp time n d r s (iters + 1) readings =
          if passes n d r s (drawn gmp time n readings) = true then
            basesLoop gmp time n d r s iters (readings + 1)
          else (false, readings + 1) := rfl
      rw [hsplit, ← ih, hstep]
      split_ifs with hpasses
      · simp [hpasses]
      · simp [hpasses]

theorem is_prime_iff {n : ℤ} {r s iters readings : ℕ} (hn : 3 ≤ n) (hodd : n % 2 = 1)
    (hsplit : n - 1 = 2 ^ s * r) (hr : r % 2 = 1) :
    (is_prime gmp time n iters readings).1 = true ↔
      ∀ i < iters, passes n (n - 1) r s (drawn gmp time n (readings + i)) = true := by
  rw [is_prime, if_neg (by omega), if_neg (by omega), if_neg (by omega)]
  simp only [hsplit, halveLoop_eq hr s 0, Nat.add_zero, basesLoop_iff]

/-- Numbers outside the range of the bases pass. -/
theorem passes_of_skipped {n a r : ℤ} {s : ℕ} (h : ¬(2 ≤ a ∧ a ≤ n - 2)) :
    passes n (n - 1) r s a = true :=
  if_pos (by omega)

/-- Each turn that draws a base is a round of the strong test, and so a prime is accepted
whatever is drawn. -/
theorem is_prime_rounds :
    (∀ (n : ℤ) (r s : ℕ), 3 ≤ n → n % 2 = 1 → n - 1 = 2 ^ s * r → r % 2 = 1 →
      halveLoop (n - 1) 0 = ((r : ℤ), s) ∧ ∀ a, 2 ≤ a → a ≤ n - 2 →
        (passes n (n - 1) r s a = true ↔ Passes n r s a) ∧ (Passes n r s a → gcd a n = 1)) ∧
    ∀ p : ℕ, p.Prime → ∀ iters readings, (is_prime gmp time p iters readings).1 = true := by
  constructor
  · intro n r s hn hodd hsplit hr
    refine ⟨?_, fun a ha hle => ⟨passes_iff hn hr ha hle, fun hpasses => ?_⟩⟩
    · rw [hsplit]
      exact halveLoop_eq hr s 0
    · rw [gcd_eq, hpasses.gcd_eq_one (by omega)]
      rfl
  · intro p hp iters readings
    rcases hp.eq_two_or_odd with rfl | hodd
    · rfl
    obtain ⟨s, r, hr, hsplit⟩ := Nat.exists_eq_two_pow_mul_odd (n := p - 1) (by have := hp.two_le; omega)
    have hthree : 3 ≤ p := by
      have := hp.two_le
      omega
    have hcast : (p : ℤ) - 1 = 2 ^ s * r := by
      rw [← Nat.cast_one, ← Nat.cast_sub hp.one_le, hsplit]
      push_cast
      rfl
    have hrodd : r % 2 = 1 := Nat.odd_iff.mp hr
    rw [is_prime_iff gmp time (by exact_mod_cast hthree) (by omega) hcast hrodd]
    intro i _
    by_cases hbase : 2 ≤ (drawn gmp time p (readings + i) : ℤ) ∧ (drawn gmp time p (readings + i) : ℤ) ≤ p - 2
    · rw [passes_iff (by exact_mod_cast hthree) hrodd hbase.1 hbase.2]
      refine passes_of_prime hp hsplit fun hdvd => ?_
      have := Int.le_of_dvd (by omega) hdvd
      omega
    · exact passes_of_skipped hbase

/-! ## Amplification -/

/-- The round before which `time` has been called so many times has a base. -/
def InRange (n : ℤ) (readings : ℕ) : Prop :=
  2 ≤ (drawn gmp time n readings : ℤ) ∧ (drawn gmp time n readings : ℤ) ≤ n - 2

/-- The bases are drawn one after the other: the generator of each round is the first one,
after as many draws. -/
def OneStream (n : ℤ) (iters readings : ℕ) : Prop :=
  ∀ i < iters, gmp.randseed_ui (time (readings + i)) =
    (fun state => (gmp.urandomm state n.toNat).2)^[i] (gmp.randseed_ui (time readings))

/-- If `n` is accepted, it has passed `iters` rounds of the strong test, to bases out of one
random stream. -/
def Amplified (n : ℤ) (r s iters readings : ℕ) : Prop :=
  (is_prime gmp time n iters readings).1 = true →
    (∀ i < iters, InRange gmp time n (readings + i) ∧
      Passes n r s (drawn gmp time n (readings + i))) ∧ OneStream gmp time n iters readings

/-- An accepted number has passed all its rounds exactly if none was skipped and the
generators that were seeded with the clock have continued one another. A base that tells a
composite number makes up for both. -/
theorem amplified_iff {n : ℤ} {r s : ℕ} (iters readings : ℕ) (hn : 5 ≤ n) (hodd : n % 2 = 1)
    (hsplit : n - 1 = 2 ^ s * r) (hr : r % 2 = 1) :
    Amplified gmp time n r s iters readings ↔
      (∃ i < iters, InRange gmp time n (readings + i) ∧
        ¬Passes n r s (drawn gmp time n (readings + i))) ∨
      (∀ i < iters, InRange gmp time n (readings + i)) ∧ OneStream gmp time n iters readings := by
  have hthree : 3 ≤ n := by omega
  have haccepts : (is_prime gmp time n iters readings).1 = true ↔ _ :=
    is_prime_iff gmp time hthree hodd hsplit hr
  have hround : ∀ i, InRange gmp time n (readings + i) →
      (passes n (n - 1) r s (drawn gmp time n (readings + i)) = true ↔
        Passes n r s (drawn gmp time n (readings + i))) :=
    fun i hbase => passes_iff hthree hr hbase.1 hbase.2
  constructor
  · intro h
    by_cases htold : ∃ i < iters, InRange gmp time n (readings + i) ∧
        ¬Passes n r s (drawn gmp time n (readings + i))
    · exact Or.inl htold
    · -- no base tells, and the numbers that are no bases pass
      have haccepted : (is_prime gmp time n iters readings).1 = true := by
        rw [haccepts]
        intro i hi
        by_cases hbase : InRange gmp time n (readings + i)
        · rw [hround i hbase]
          by_contra hfails
          exact htold ⟨i, hi, hbase, hfails⟩
        · exact passes_of_skipped hbase
      obtain ⟨hrounds, hstream⟩ := h haccepted
      exact Or.inr ⟨fun i hi => (hrounds i hi).1, hstream⟩
  · rintro (⟨i, hi, hbase, hfails⟩ | ⟨hbases, hstream⟩) haccepted
    · exact absurd ((hround i hbase).mp (haccepts.mp haccepted i hi)) hfails
    · refine ⟨fun i hi => ⟨hbases i hi, ?_⟩, hstream⟩
      exact (hround i (hbases i hi)).mp (haccepts.mp haccepted i hi)

/-- In a call that takes no second, the generator of the second round is as far as that of
the first. -/
theorem not_oneStream_of_same_second {n : ℤ} {iters readings : ℕ} (hiters : 2 ≤ iters)
    (htime : time (readings + 1) = time readings)
    (hdraw : (gmp.urandomm (gmp.randseed_ui (time readings)) n.toNat).2 ≠
      gmp.randseed_ui (time readings)) : ¬OneStream gmp time n iters readings := by
  intro h
  have hsecond := h 1 hiters
  rw [htime, Function.iterate_one] at hsecond
  exact hdraw hsecond.symm

/-- What GMP draws below 25 when it is seeded with 1700000005, and below 9 when it is seeded
with 1700000010. -/
def clockGmp : Gmp (ℕ × ℕ) where
  randseed_ui seed := (seed, 0)
  rrandomb state bits := (2 ^ bits - 1, state)
  urandomm state n :=
    (if n = 25 ∧ state = (1700000005, 0) then 7
      else if n = 25 ∧ state = (1700000005, 1) then 18
      else if n = 25 ∧ state = (1700000005, 2) then 19
      else 0, (state.1, state.2 + 1))
  rrandomb_ge state bits hbits := by
    have hhalf : 2 ^ bits = 2 * 2 ^ (bits - 1) := by
      rw [← Nat.pow_succ', Nat.succ_eq_add_one, Nat.sub_add_cancel hbits]
    have hpos := Nat.two_pow_pos (bits - 1)
    omega
  rrandomb_lt state bits := Nat.sub_lt (Nat.two_pow_pos bits) Nat.one_pos
  urandomm_lt state n hn := by
    dsimp only
    split_ifs <;> omega

/-- 13 passes the round of the base 2 in its second square, and all rounds it is given. -/
theorem is_prime_rounds_thirteen :
    (halveLoop (13 - 1) 0 = (3, 2) ∧ passes 13 (13 - 1) 3 2 2 = true ∧ gcd 2 13 = 1) ∧
      (is_prime clockGmp (fun _ => 1700000005) 13 50 0).1 = true := by
  obtain ⟨hrounds, hprimes⟩ := is_prime_rounds clockGmp fun _ => 1700000005
  obtain ⟨hhalve, hround⟩ := hrounds 13 3 2 (by norm_num) (by norm_num) (by norm_num) (by norm_num)
  obtain ⟨hpasses, hgcd⟩ := hround 2 (by norm_num) (by norm_num)
  have hbase : Passes 13 3 2 2 := Or.inr ⟨1, by norm_num, by decide⟩
  exact ⟨⟨hhalve, hpasses.mpr hbase, hgcd hbase⟩, hprimes 13 (by norm_num) 50 0⟩

/-- One round, to the base 7, tells nothing about 25. -/
theorem amplified_iff_twenty_five :
    Amplified clockGmp (fun _ => 1700000005) 25 3 3 1 0 := by
  refine (amplified_iff clockGmp (fun _ => 1700000005) 1 0 (by norm_num) (by norm_num) (by norm_num)
    (by norm_num)).mpr (Or.inr ⟨?_, ?_⟩)
  · intro i hi
    obtain rfl : i = 0 := by omega
    exact ⟨by decide, by decide⟩
  · intro i hi
    obtain rfl : i = 0 := by omega
    rfl

/-- Fifty rounds in one second accept 25 after one base, and 9 after none. -/
theorem composites_accepted :
    (is_prime clockGmp (fun _ => 1700000005) 25 50 0).1 = true ∧
      ¬Amplified clockGmp (fun _ => 1700000005) 25 3 3 50 0 ∧
      (is_prime clockGmp (fun _ => 1700000010) 9 50 0).1 = true ∧
      ¬Amplified clockGmp (fun _ => 1700000010) 9 1 3 50 0 := by
  have hseven : (is_prime clockGmp (fun _ => 1700000005) 25 50 0).1 = true := by decide +kernel
  have hzero : (is_prime clockGmp (fun _ => 1700000010) 9 50 0).1 = true := by decide +kernel
  refine ⟨hseven, fun h => ?_, hzero, fun h => ?_⟩
  · exact not_oneStream_of_same_second clockGmp (fun _ => 1700000005) (by norm_num) rfl (by decide)
      (h hseven).2
  · exact absurd ((h hzero).1 0 (by norm_num)).1.1 (by decide)

end FavoriteAssignments.SchmidtSamoa
