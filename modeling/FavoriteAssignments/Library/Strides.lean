import FavoriteAssignments.Library.Rearrangement
import Mathlib.Algebra.Group.Nat.Defs

/-! # Order at a distance

Arrays whose elements at a distance are in order, and what one bubble pass along the chains
of a distance `j` makes of them. After Pratt: such a pass keeps every order at a distance,
and it sorts the chains of an array that is in order at the distances `2 * j` and `3 * j`. -/

namespace FavoriteAssignments.Strides

open Rearrangement

variable {α : Type*} [LinearOrder α] {n p q j k : ℕ} {A : ℕ → α}

/-- Elements at distance `p` are in order. -/
def StrideSorted (n p : ℕ) (A : ℕ → α) : Prop := ∀ i, i + p < n → A i ≤ A (i + p)

theorem strideSorted_of_le (h : n ≤ p) : StrideSorted n p A := by
  intro i hi
  omega

theorem StrideSorted.add (hp : StrideSorted n p A) (hq : StrideSorted n q A) :
    StrideSorted n (p + q) A := by
  intro i hi
  rw [← Nat.add_assoc] at hi ⊢
  exact (hp i (by omega)).trans (hq _ hi)

theorem StrideSorted.mul (h : StrideSorted n p A) (k : ℕ) : StrideSorted n (p * k) A := by
  induction k with
  | zero => exact fun i _ => le_rfl
  | succ k ih => exact ih.add h

/-- Two and three steps make every number of steps but one. -/
theorem StrideSorted.mul_of_two_le (h₂ : StrideSorted n (2 * j) A)
    (h₃ : StrideSorted n (3 * j) A) (hk : 2 ≤ k) : StrideSorted n (k * j) A := by
  induction k using Nat.strong_induction_on with
  | _ k ih =>
      by_cases h2 : k = 2
      · exact h2 ▸ h₂
      · by_cases h3 : k = 3
        · exact h3 ▸ h₃
        · obtain ⟨m, rfl⟩ := Nat.exists_eq_add_of_le' hk
          rw [Nat.add_mul]
          exact (ih m (by omega) (by omega)).add h₂

/-! ## A bubble pass -/

/-- The greatest element of the chain that ends in `i`. -/
def chainMax (j : ℕ) (A : ℕ → α) (i : ℕ) : α :=
  if 0 < j ∧ j ≤ i then max (A i) (chainMax j A (i - j)) else A i
termination_by i

theorem chainMax_of_lt {i : ℕ} (h : i < j) : chainMax j A i = A i := by
  rw [chainMax, if_neg (by omega)]

theorem chainMax_add (hj : 0 < j) (i : ℕ) :
    chainMax j A (i + j) = max (A (i + j)) (chainMax j A i) := by
  rw [chainMax, if_pos ⟨hj, Nat.le_add_left j i⟩, Nat.add_sub_cancel]

theorem self_le_chainMax (i : ℕ) : A i ≤ chainMax j A i := by
  rw [chainMax]
  split
  · exact le_max_left _ _
  · exact le_rfl

/-- A bound for the whole chain. -/
theorem chainMax_le {x : α} (hj : 0 < j) {i : ℕ} (h : ∀ m l, i = l + j * m → A l ≤ x) :
    chainMax j A i ≤ x := by
  induction i using Nat.strong_induction_on with
  | _ i ih =>
      rw [chainMax]
      split
      · next hji =>
          apply max_le (h 0 i (by simp))
          apply ih (i - j) (by omega)
          intro m l hl
          apply h (m + 1) l
          rw [Nat.mul_succ]
          omega
      · exact h 0 i (by simp)

theorem le_chainMax (hj : 0 < j) (l m : ℕ) : A l ≤ chainMax j A (l + j * m) := by
  induction m with
  | zero => exact self_le_chainMax l
  | succ m ih =>
      rw [Nat.mul_succ, ← Nat.add_assoc, chainMax_add hj]
      exact ih.trans (le_max_right _ _)

/-- The array when a bubble pass along the chains has come to the place `k`. -/
def bubble (k j : ℕ) (A : ℕ → α) (i : ℕ) : α :=
  if k ≤ i then A i else if i + j < k then min (chainMax j A i) (A (i + j)) else chainMax j A i

theorem bubble_of_le {i : ℕ} (h : k ≤ i) : bubble k j A i = A i := if_pos h

theorem bubble_last {i : ℕ} (h : i < k) (h' : k ≤ i + j) : bubble k j A i = chainMax j A i := by
  rw [bubble, if_neg (by omega), if_neg (by omega)]

theorem bubble_inner {i : ℕ} (h : i + j < k) :
    bubble k j A i = min (chainMax j A i) (A (i + j)) := by
  rw [bubble, if_neg (by omega), if_pos h]

theorem bubble_le_chainMax {i : ℕ} (h : i < k) : bubble k j A i ≤ chainMax j A i := by
  by_cases hj : i + j < k
  · rw [bubble_inner hj]
    exact min_le_left _ _
  · rw [bubble_last h (by omega)]

theorem bubble_start : bubble j j A = A := by
  funext i
  by_cases hi : j ≤ i
  · exact bubble_of_le hi
  · rw [bubble_last (by omega) (by omega), chainMax_of_lt (by omega)]

/-- Coming to the place `k + j`, a pass puts its element and the greatest one before it in
order. -/
theorem bubble_succ (hj : 0 < j) :
    bubble (k + j + 1) j A = compareExchange k (k + j) (bubble (k + j) j A) := by
  funext i
  rw [compareExchange, bubble_of_le le_rfl, bubble_last (by omega) le_rfl]
  by_cases hi : i = k + j
  · subst hi
    rw [Function.update_self, bubble_last (by omega) (by omega), chainMax_add hj, max_comm]
  · rw [Function.update_of_ne hi]
    by_cases hik : i = k
    · subst hik
      rw [Function.update_self, bubble_inner (by omega)]
    · rw [Function.update_of_ne hik, bubble, bubble]
      have hle : k + j + 1 ≤ i ↔ k + j ≤ i := by omega
      have hlt : i + j < k + j + 1 ↔ i + j < k + j := by omega
      simp only [hle, hlt]

/-! ## What a pass keeps and what it makes -/

/-- A pass keeps every order at a distance. -/
theorem StrideSorted.bubble (hj : 0 < j) (h : StrideSorted n p A) :
    StrideSorted n p (bubble n j A) := by
  intro i hi
  have hchain : chainMax j A i ≤ chainMax j A (i + p) := by
    apply chainMax_le hj
    rintro m l rfl
    apply (h l (by omega)).trans
    rw [Nat.add_right_comm]
    exact le_chainMax hj (l + p) m
  have hbubble := (bubble_le_chainMax (A := A) (j := j) (by omega : i < n)).trans hchain
  by_cases hn : i + p + j < n
  · rw [bubble_inner hn]
    apply le_min hbubble
    rw [bubble_inner (by omega), Nat.add_right_comm]
    exact (min_le_right _ _).trans (h _ (by omega))
  · rw [bubble_last hi (by omega)]
    exact hbubble

/-- No element has two greater ones before it in its chain. -/
def OneGreater (n j : ℕ) (A : ℕ → α) : Prop :=
  ∀ i a b, 0 < a → 0 < b → i + j * a + j * b < n →
    A i ≤ A (i + j * a + j * b) ∨ A (i + j * a) ≤ A (i + j * a + j * b)

/-- An element with two greater ones before it moves down one place only, and a greater one
stays in front of it. -/
theorem oneGreater_of_bubble (hj : 0 < j) (h : StrideSorted n j (Strides.bubble n j A)) :
    OneGreater n j A := by
  intro i a b ha hb hn
  by_contra hgreater
  rw [not_or, not_le, not_le] at hgreater
  obtain ⟨a, rfl⟩ := Nat.exists_eq_add_of_lt ha
  obtain ⟨b, rfl⟩ := Nat.exists_eq_add_of_lt hb
  rw [Nat.zero_add, Nat.zero_add] at hgreater hn
  simp only [Nat.mul_succ, ← Nat.add_assoc] at hgreater hn
  have hfirst : A (i + j * a + j + j * b + j) < Strides.bubble n j A (i + j * a) := by
    rw [bubble_inner (by omega)]
    exact lt_min (hgreater.1.trans_le (le_chainMax hj i a)) hgreater.2
  have hlast : Strides.bubble n j A (i + j * a + j + j * b) ≤ A (i + j * a + j + j * b + j) := by
    rw [bubble_inner hn]
    exact min_le_right _ _
  have hsteps := h.mul (b + 1) (i + j * a)
  rw [Nat.mul_succ, Nat.add_comm (j * b), ← Nat.add_assoc] at hsteps
  exact (hfirst.trans_le (hsteps (by omega))).not_ge hlast

/-- A pass sorts the chains exactly when no element has to move down by more than one place. -/
theorem strideSorted_bubble_iff (hj : 0 < j) :
    StrideSorted n j (Strides.bubble n j A) ↔ OneGreater n j A := by
  refine ⟨oneGreater_of_bubble hj, ?_⟩
  intro h i hi
  rw [bubble_inner hi]
  have hlast : min (chainMax j A i) (A (i + j)) ≤ chainMax j A (i + j) :=
    (min_le_right _ _).trans (self_le_chainMax _)
  by_cases hn : i + j + j < n
  · rw [bubble_inner hn]
    apply le_min hlast
    by_cases hnext : A (i + j) ≤ A (i + j + j)
    · exact (min_le_right _ _).trans hnext
    · apply (min_le_left _ _).trans
      apply chainMax_le hj
      rintro m l rfl
      have hone := h l (m + 1) 1 (by omega) (by omega)
      rw [Nat.mul_succ, Nat.mul_one, ← Nat.add_assoc] at hone
      exact (hone hn).resolve_right hnext
  · rw [bubble_last hi (by omega)]
    exact hlast

/-- A pass sorts the chains of an array that is in order at two and at three steps. -/
theorem strideSorted_bubble (hj : 0 < j) (h₂ : StrideSorted n (2 * j) A)
    (h₃ : StrideSorted n (3 * j) A) : StrideSorted n j (Strides.bubble n j A) := by
  rw [strideSorted_bubble_iff hj]
  intro i a b ha hb hn
  have hsteps := h₂.mul_of_two_le h₃ (show 2 ≤ a + b by omega) i
  rw [Nat.mul_comm, Nat.mul_add, ← Nat.add_assoc] at hsteps
  exact .inl (hsteps hn)

end FavoriteAssignments.Strides
