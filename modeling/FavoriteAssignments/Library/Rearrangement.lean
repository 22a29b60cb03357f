import Mathlib.Algebra.Group.End
import Mathlib.Data.List.Perm.Basic
import Mathlib.Data.List.Nodup
import Mathlib.Data.List.Range
import Mathlib.Order.Defs.LinearOrder
import Mathlib.Order.Interval.Set.Basic
import Mathlib.Order.Lattice

/-! # Rearrangements of an array

Arrays are functions of the index. What an in-place algorithm may do to one is to permute
the places of a set, and its result is judged on the list of the first `n` elements. -/

namespace FavoriteAssignments.Rearrangement

variable {α : Type*} {s t : Set ℕ} {A B C : ℕ → α} {n : ℕ}

/-- `B` is `A` with the elements at the places of `s` in some other order. -/
def Rearranges (s : Set ℕ) (A B : ℕ → α) : Prop :=
  ∃ σ : Equiv.Perm ℕ, (∀ i, i ∉ s → σ i = i) ∧ B = A ∘ σ

theorem Rearranges.refl (s : Set ℕ) (A : ℕ → α) : Rearranges s A A :=
  ⟨1, fun _ _ => rfl, rfl⟩

theorem Rearranges.symm (h : Rearranges s A B) : Rearranges s B A := by
  obtain ⟨σ, hσ, rfl⟩ := h
  refine ⟨σ.symm, ?_, ?_⟩
  · intro i hi
    rw [Equiv.symm_apply_eq, hσ i hi]
  · rw [Function.comp_assoc, Equiv.self_comp_symm, Function.comp_id]

theorem Rearranges.trans (h : Rearranges s A B) (h' : Rearranges s B C) : Rearranges s A C := by
  obtain ⟨σ, hσ, rfl⟩ := h
  obtain ⟨τ, hτ, rfl⟩ := h'
  refine ⟨σ * τ, ?_, rfl⟩
  intro i hi
  rw [Equiv.Perm.mul_apply, hτ i hi, hσ i hi]

theorem Rearranges.mono (h : Rearranges s A B) (hst : s ⊆ t) : Rearranges t A B := by
  obtain ⟨σ, hσ, hB⟩ := h
  exact ⟨σ, fun i hi => hσ i fun his => hi (hst his), hB⟩

theorem Rearranges.swap {i j : ℕ} (hi : i ∈ s) (hj : j ∈ s) (A : ℕ → α) :
    Rearranges s A (A ∘ Equiv.swap i j) := by
  refine ⟨Equiv.swap i j, ?_, rfl⟩
  intro k hk
  exact Equiv.swap_apply_of_ne_of_ne (fun h => hk (h ▸ hi)) (fun h => hk (h ▸ hj))

/-- Places outside of the set keep their elements. -/
theorem Rearranges.eq_of_notMem (h : Rearranges s A B) {i : ℕ} (hi : i ∉ s) : B i = A i := by
  obtain ⟨σ, hσ, rfl⟩ := h
  rw [Function.comp_apply, hσ i hi]

theorem apply_mem_iff {σ : Equiv.Perm ℕ} (hσ : ∀ i, i ∉ s → σ i = i) (i : ℕ) :
    σ i ∈ s ↔ i ∈ s := by
  constructor
  · intro h
    by_contra hi
    rw [hσ i hi] at h
    exact hi h
  · intro h
    by_contra hi
    have hfix : σ i = i := σ.injective (hσ (σ i) hi)
    rw [hfix] at hi
    exact hi h

theorem Rearranges.exists_eq (h : Rearranges s A B) {i : ℕ} (hi : i ∈ s) :
    ∃ j ∈ s, B i = A j := by
  obtain ⟨σ, hσ, rfl⟩ := h
  exact ⟨σ i, (apply_mem_iff hσ i).mpr hi, rfl⟩

/-- What holds of all elements of the set still holds of them. -/
theorem Rearranges.forall_mem {P : α → Prop} (h : Rearranges s A B) (hA : ∀ i ∈ s, P (A i)) :
    ∀ i ∈ s, P (B i) := by
  intro i hi
  obtain ⟨j, hj, hB⟩ := h.exists_eq hi
  exact hB ▸ hA j hj

/-! ## Exchanging two elements -/

theorem comp_swap_left {i j : ℕ} : (A ∘ Equiv.swap i j) i = A j := by
  rw [Function.comp_apply, Equiv.swap_apply_left]

theorem comp_swap_right {i j : ℕ} : (A ∘ Equiv.swap i j) j = A i := by
  rw [Function.comp_apply, Equiv.swap_apply_right]

theorem comp_swap_of_ne {i j k : ℕ} (hi : k ≠ i) (hj : k ≠ j) :
    (A ∘ Equiv.swap i j) k = A k := by
  rw [Function.comp_apply, Equiv.swap_apply_of_ne_of_ne hi hj]

/-! ## Compare and exchange -/

section CompareExchange

variable [LinearOrder α] {x y : ℕ}

/-- Compare and exchange the elements at `x` and `y`. -/
def compareExchange (x y : ℕ) (A : ℕ → α) : ℕ → α :=
  Function.update (Function.update A x (min (A x) (A y))) y (max (A x) (A y))

theorem compareExchange_of_le (h : A x ≤ A y) : compareExchange x y A = A := by
  rw [compareExchange, min_eq_left h, max_eq_right h, Function.update_eq_self,
    Function.update_eq_self]

theorem compareExchange_of_lt (h : A y < A x) :
    compareExchange x y A = A ∘ Equiv.swap x y := by
  rw [compareExchange, min_eq_right h.le, max_eq_left h.le]
  funext i
  by_cases hy : i = y
  · subst hy
    simp
  · by_cases hx : i = x
    · subst hx
      simp [hy]
    · simp [hx, hy, Equiv.swap_apply_of_ne_of_ne]

theorem rearranges_compareExchange (hx : x ∈ s) (hy : y ∈ s) :
    Rearranges s A (compareExchange x y A) := by
  rcases le_or_gt (A x) (A y) with h | h
  · rw [compareExchange_of_le h]
    exact Rearranges.refl s A
  · rw [compareExchange_of_lt h]
    exact Rearranges.swap hx hy A

end CompareExchange

/-! ## The first elements as a list -/

/-- The first `n` elements of an array. -/
def contents (n : ℕ) (A : ℕ → α) : List α := (List.range n).map A

theorem Rearranges.perm (h : Rearranges (Set.Iio n) A B) :
    (contents n B).Perm (contents n A) := by
  obtain ⟨σ, hσ, rfl⟩ := h
  have hrange : ((List.range n).map σ).Perm (List.range n) := by
    rw [List.perm_ext_iff_of_nodup (List.nodup_range.map σ.injective) List.nodup_range]
    intro i
    rw [List.mem_map, List.mem_range]
    constructor
    · intro h
      obtain ⟨j, hj, rfl⟩ := h
      exact (apply_mem_iff hσ j).mpr (List.mem_range.mp hj)
    · intro hi
      refine ⟨σ.symm i, ?_, σ.apply_symm_apply i⟩
      rw [List.mem_range]
      apply (apply_mem_iff hσ _).mp
      rwa [σ.apply_symm_apply]
  rw [contents, ← List.map_map]
  exact hrange.map A

theorem pairwise_contents_iff [LE α] :
    (contents n A).Pairwise (· ≤ ·) ↔ ∀ i j, i < j → j < n → A i ≤ A j := by
  rw [contents, List.pairwise_map, List.pairwise_iff_getElem]
  simp only [List.length_range, List.getElem_range]
  constructor
  · intro h i j hij hj
    exact h i j (hij.trans hj) hj hij
  · intro h i j _ hj hij
    exact h i j hij hj

/-- Neighbours in order make the whole list sorted. -/
theorem pairwise_contents_of_succ [Preorder α] (h : ∀ i, i + 1 < n → A i ≤ A (i + 1)) :
    (contents n A).Pairwise (· ≤ ·) := by
  rw [pairwise_contents_iff]
  intro i j hij
  induction j, hij using Nat.le_induction with
  | base => exact h i
  | succ j _ ih =>
      intro hj
      exact (ih (by omega)).trans (h j hj)

end FavoriteAssignments.Rearrangement
