import Mathlib.Data.Nat.Digits.Lemmas

/-! # Positional numerals

Digit lists with the most significant digit first, as number formats and big
integer libraries write them. -/

namespace FavoriteAssignments.Positional

/-- The number a digit list stands for in base `b`. -/
def value (b : ℕ) (ds : List ℕ) : ℕ := Nat.ofDigits b ds.reverse

/-- The digits of `m` in base `b`, without leading zeros. -/
def numeral (b m : ℕ) : List ℕ := (Nat.digits b m).reverse

@[simp] theorem value_nil (b : ℕ) : value b [] = 0 := rfl

theorem value_append (b : ℕ) (ds es : List ℕ) :
    value b (ds ++ es) = value b es + b ^ es.length * value b ds := by
  simp [value, Nat.ofDigits_append]

theorem value_cons (b d : ℕ) (ds : List ℕ) :
    value b (d :: ds) = value b ds + b ^ ds.length * d := by
  simp [value, Nat.ofDigits_append]

theorem value_zero_cons (b : ℕ) (ds : List ℕ) : value b (0 :: ds) = value b ds := by
  simp [value_cons]

theorem value_replicate_zero (b k : ℕ) : value b (List.replicate k 0) = 0 := by
  induction k with
  | zero => rfl
  | succ k ih => rw [List.replicate_succ, value_zero_cons, ih]

theorem value_lt {b : ℕ} (hb : 1 < b) {ds : List ℕ} (h : ∀ d ∈ ds, d < b) :
    value b ds < b ^ ds.length := by
  have := Nat.ofDigits_lt_base_pow_length hb (l := ds.reverse) (by simpa using h)
  simpa [value] using this

theorem value_numeral (b m : ℕ) : value b (numeral b m) = m := by
  simp [value, numeral, Nat.ofDigits_digits]

theorem numeral_lt {b m : ℕ} (hb : 1 < b) : ∀ d ∈ numeral b m, d < b := by
  intro d hd
  exact Nat.digits_lt_base hb (by simpa [numeral] using hd)

@[simp] theorem numeral_zero (b : ℕ) : numeral b 0 = [] := by simp [numeral]

theorem numeral_ne_nil {b m : ℕ} (hm : m ≠ 0) : numeral b m ≠ [] := by
  simpa [numeral] using Nat.digits_ne_nil_iff_ne_zero.mpr hm

theorem numeral_length_le_iff {b m k : ℕ} (hb : 1 < b) :
    (numeral b m).length ≤ k ↔ m < b ^ k := by
  simpa [numeral] using Nat.digits_length_le_iff hb m

theorem value_take_le {b : ℕ} (hb : 1 < b) {ds : List ℕ} (k : ℕ) : value b (ds.take k) ≤ value b ds := by
  have hsplit := value_append b (ds.take k) (ds.drop k)
  rw [List.take_append_drop] at hsplit
  have hmul : 1 * value b (ds.take k) ≤ b ^ (ds.drop k).length * value b (ds.take k) :=
    Nat.mul_le_mul_right _ (Nat.pow_pos (by omega))
  omega

/-- Leading digits of a number that is not zero stand for a smaller number. -/
theorem value_take_lt {b k : ℕ} (hb : 1 < b) {ds : List ℕ} (hk : k < ds.length)
    (hpos : 0 < value b ds) : value b (ds.take k) < value b ds := by
  have hsplit := value_append b (ds.take k) (ds.drop k)
  rw [List.take_append_drop, List.length_drop] at hsplit
  have hpow : b ≤ b ^ (ds.length - k) := Nat.le_self_pow (by omega) b
  have hmul : 2 * value b (ds.take k) ≤ b ^ (ds.length - k) * value b (ds.take k) :=
    Nat.mul_le_mul_right _ (by omega)
  omega

/-- Reading a digit list and writing it back drops the leading zeros. -/
theorem numeral_value {b : ℕ} (hb : 1 < b) {ds : List ℕ} (h : ∀ d ∈ ds, d < b) :
    numeral b (value b ds) = ds.dropWhile (· == 0) := by
  induction ds with
  | nil => simp
  | cons d ds ih =>
      by_cases hd : d = 0
      · subst hd
        rw [value_zero_cons, ih fun d hmem => h d (List.mem_cons_of_mem _ hmem)]
        simp
      · have hdigits := Nat.digits_ofDigits b hb (d :: ds).reverse
          (fun e he => h e (List.mem_reverse.mp he)) (by simpa using hd)
        rw [numeral, value, hdigits]
        simp [hd]

end FavoriteAssignments.Positional
