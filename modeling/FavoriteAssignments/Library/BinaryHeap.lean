import FavoriteAssignments.Library.Rearrangement
import Mathlib.Algebra.Group.Nat.Defs

/-! # Binary heaps in arrays

Sifting down, building a heap from the bottom, and emptying it from the end. Nodes count
from one, node `k` is stored at the place `k - 1` and has the children `2 * k` and
`2 * k + 1`, as far as these are at most `last`. -/

namespace FavoriteAssignments.BinaryHeap

open Rearrangement

variable {α : Type*} [LinearOrder α] {A : ℕ → α} {last j k c : ℕ}

/-! ## Subtrees -/

/-- The node `k` and the nodes below it. -/
def subtree (k : ℕ) : Set ℕ := {c | ∃ i, c / 2 ^ i = k}

theorem self_mem_subtree (k : ℕ) : k ∈ subtree k :=
  ⟨0, Nat.div_one k⟩

theorem mem_subtree_of_half (h : c / 2 ∈ subtree k) : c ∈ subtree k := by
  obtain ⟨i, hi⟩ := h
  refine ⟨i + 1, ?_⟩
  rw [Nat.pow_succ', ← Nat.div_div_eq_div_mul, hi]

theorem le_of_mem_subtree (h : c ∈ subtree k) : k ≤ c := by
  obtain ⟨i, rfl⟩ := h
  exact Nat.div_le_self c (2 ^ i)

theorem subtree_subset (h : j ∈ subtree k) : subtree j ⊆ subtree k := by
  obtain ⟨i, rfl⟩ := h
  rintro c ⟨l, rfl⟩
  refine ⟨l + i, ?_⟩
  rw [Nat.pow_add, Nat.div_div_eq_div_mul]

/-! ## Sifting down -/

/-- The greater child, the left one when both are equal. -/
def greaterChild (last : ℕ) (A : ℕ → α) (k : ℕ) : ℕ :=
  if 2 * k + 1 ≤ last ∧ A (2 * k - 1) < A (2 * k) then 2 * k + 1 else 2 * k

theorem greaterChild_eq_or (last : ℕ) (A : ℕ → α) (k : ℕ) :
    greaterChild last A k = 2 * k ∨ greaterChild last A k = 2 * k + 1 := by
  rw [greaterChild]
  split
  · exact .inr rfl
  · exact .inl rfl

theorem greaterChild_div (last : ℕ) (A : ℕ → α) (k : ℕ) : greaterChild last A k / 2 = k := by
  rcases greaterChild_eq_or last A k with h | h <;> omega

theorem lt_greaterChild (last : ℕ) (A : ℕ → α) (hk : 0 < k) : k < greaterChild last A k := by
  rcases greaterChild_eq_or last A k with h | h <;> omega

theorem greaterChild_le (h : 2 * k ≤ last) : greaterChild last A k ≤ last := by
  rw [greaterChild]
  split
  · next hright => exact hright.1
  · exact h

theorem le_greaterChild (hc : c ≤ last) (hp : c / 2 = k) :
    A (c - 1) ≤ A (greaterChild last A k - 1) := by
  have hcases : c = 2 * k ∨ c = 2 * k + 1 := by omega
  rw [greaterChild]
  rcases hcases with rfl | rfl
  · split
    · next h => exact h.2.le
    · exact le_rfl
  · split
    · exact le_rfl
    · next h => exact not_lt.mp fun hlt => h ⟨hc, hlt⟩

/-- Exchange the element of node `k` with its greater child until no child is greater. -/
def siftDown (last : ℕ) (A : ℕ → α) (k : ℕ) : ℕ → α :=
  if h : (0 < k ∧ 2 * k ≤ last) ∧ A (k - 1) < A (greaterChild last A k - 1) then
    siftDown last (A ∘ Equiv.swap (k - 1) (greaterChild last A k - 1)) (greaterChild last A k)
  else A
termination_by last - k
decreasing_by
  have := lt_greaterChild last A h.1.1
  have := greaterChild_le (A := A) h.1.2
  omega

/-- Only places of the subtree are exchanged. -/
theorem rearranges_siftDown_subtree (last : ℕ) (A : ℕ → α) (k : ℕ) :
    Rearranges {i | i < last ∧ i + 1 ∈ subtree k} A (siftDown last A k) := by
  fun_induction siftDown last A k with
  | case1 A k h ih =>
      have hlt := lt_greaterChild last A h.1.1
      have hle := greaterChild_le (A := A) h.1.2
      have hmem : greaterChild last A k ∈ subtree k := by
        apply mem_subtree_of_half
        rw [greaterChild_div]
        exact self_mem_subtree k
      have hchild := ih.mono (t := {i | i < last ∧ i + 1 ∈ subtree k}) fun i hi =>
        ⟨hi.1, subtree_subset hmem hi.2⟩
      apply Rearranges.trans _ hchild
      apply Rearranges.swap
      · refine ⟨by omega, ?_⟩
        rw [Nat.sub_add_cancel h.1.1]
        exact self_mem_subtree k
      · refine ⟨by omega, ?_⟩
        rw [Nat.sub_add_cancel (by omega)]
        exact hmem
  | case2 => exact Rearranges.refl _ _

theorem rearranges_siftDown (last : ℕ) (A : ℕ → α) (k : ℕ) :
    Rearranges (Set.Iio last) A (siftDown last A k) :=
  (rearranges_siftDown_subtree last A k).mono fun _ hi => Set.mem_Iio.mpr hi.1

/-! ### What it leaves alone -/

/-- Sifting down changes no node before the first child but the node itself. -/
theorem siftDown_of_lt (hc : 0 < c) (hne : c ≠ k) (hlt : c < 2 * k) :
    siftDown last A k (c - 1) = A (c - 1) := by
  fun_induction siftDown last A k with
  | case1 A k h ih =>
      have hk : 2 * k ≤ greaterChild last A k := by
        rcases greaterChild_eq_or last A k with h | h <;> omega
      rw [ih (by omega) (by omega), comp_swap_of_ne (by omega) (by omega)]
  | case2 => rfl

/-- The node itself keeps its element or gets one of its children's. -/
theorem siftDown_self (last : ℕ) (A : ℕ → α) (k : ℕ) :
    siftDown last A k (k - 1) = A (k - 1) ∨
      0 < k ∧ siftDown last A k (k - 1) = A (greaterChild last A k - 1) := by
  rw [siftDown]
  split
  · next h =>
      have hlt := lt_greaterChild last A h.1.1
      right
      refine ⟨h.1.1, ?_⟩
      rw [siftDown_of_lt h.1.1 (by omega) (by omega), comp_swap_left]
  · exact .inl rfl

/-- A leaf that is sifted into gets a smaller element. -/
theorem siftDown_leaf_le (hc : 0 < c) (hleaf : last < 2 * c) (hne : c ≠ k) :
    siftDown last A k (c - 1) ≤ A (c - 1) := by
  fun_induction siftDown last A k with
  | case1 A k h ih =>
      by_cases hg : c = greaterChild last A k
      · rw [← hg, siftDown, dif_neg (by omega), comp_swap_right]
        rw [← hg] at h
        exact h.2.le
      · have hkeep : (A ∘ Equiv.swap (k - 1) (greaterChild last A k - 1)) (c - 1) = A (c - 1) := by
          have hlt := lt_greaterChild last A h.1.1
          exact comp_swap_of_ne (by omega) (by omega)
        exact hkeep ▸ ih hg
  | case2 => exact le_rfl

/-! ### What it puts in order -/

/-- The nodes of `P` are at least as large as their children up to `last`. -/
def HeapOn (last : ℕ) (P : Set ℕ) (A : ℕ → α) : Prop :=
  ∀ c, 2 ≤ c → c ≤ last → c / 2 ∈ P → A (c - 1) ≤ A (c / 2 - 1)

/-- A heap but for node `k`, whose children still are below its father. -/
structure Sifting (last : ℕ) (P : Set ℕ) (k : ℕ) (A : ℕ → α) : Prop where
  order : HeapOn last (P \ {k}) A
  below : ∀ c, c ≤ last → c / 2 = k → 2 ≤ k → k / 2 ∈ P → A (c - 1) ≤ A (k / 2 - 1)

variable {P : Set ℕ}

/-- Exchanging with the greater child moves the exception down. -/
theorem Sifting.swap (h : Sifting last P k A) (hP : ∀ c, c / 2 ∈ P → c ∈ P)
    (hk : 0 < k ∧ 2 * k ≤ last) (hlt : A (k - 1) < A (greaterChild last A k - 1)) :
    Sifting last P (greaterChild last A k)
      (A ∘ Equiv.swap (k - 1) (greaterChild last A k - 1)) := by
  have hle := greaterChild_le (A := A) hk.2
  have hdiv := greaterChild_div last A k
  have hgt := lt_greaterChild last A hk.1
  have hmax : ∀ c, c ≤ last → c / 2 = k → A (c - 1) ≤ A (greaterChild last A k - 1) :=
    fun c hc hp => le_greaterChild hc hp
  generalize greaterChild last A k = g at *
  constructor
  · intro c hc hlast hp
    by_cases hck : c / 2 = k
    · rw [hck, comp_swap_left]
      by_cases hcg : c = g
      · rw [hcg, comp_swap_right]
        exact hlt.le
      · rw [comp_swap_of_ne (by omega) (by omega)]
        exact hmax c hlast hck
    · have hpar : (A ∘ Equiv.swap (k - 1) (g - 1)) (c / 2 - 1) = A (c / 2 - 1) :=
        comp_swap_of_ne (by omega) (by have := hp.2; rw [Set.mem_singleton_iff] at this; omega)
      rw [hpar]
      by_cases hc' : c = k
      · rw [hc', comp_swap_left]
        exact h.below g hle hdiv (by omega) (hc' ▸ hp.1)
      · rw [comp_swap_of_ne (by omega) (by rintro h; apply hck; rw [← hdiv]; congr 1; omega)]
        exact h.order c hc hlast ⟨hp.1, hck⟩
  · intro c hlast hp hg hpar
    rw [hdiv] at hpar
    rw [hdiv, comp_swap_left, comp_swap_of_ne (by omega) (by omega), ← hp]
    exact h.order c (by omega) hlast ⟨hp ▸ hP g (hdiv ▸ hpar), by
      rw [Set.mem_singleton_iff]; omega⟩

/-- Without a greater child there is no exception. -/
theorem Sifting.stop (h : Sifting last P k A)
    (hstop : ¬((0 < k ∧ 2 * k ≤ last) ∧ A (k - 1) < A (greaterChild last A k - 1))) :
    HeapOn last P A := by
  intro c hc hlast hp
  by_cases hck : c / 2 = k
  · rw [hck]
    apply (le_greaterChild hlast hck).trans
    exact not_lt.mp fun hlt => hstop ⟨by omega, hlt⟩
  · exact h.order c hc hlast ⟨hp, hck⟩

theorem Sifting.siftDown (h : Sifting last P k A) (hP : ∀ c, c / 2 ∈ P → c ∈ P) :
    HeapOn last P (siftDown last A k) := by
  fun_induction BinaryHeap.siftDown last A k with
  | case1 A k hk ih => exact ih (h.swap hP hk.1 hk.2)
  | case2 A k hk => exact h.stop hk

/-- A node above two heaps becomes the root of one. -/
theorem heapOn_siftDown (h : HeapOn last (subtree k \ {k}) A) :
    HeapOn last (subtree k) (siftDown last A k) := by
  have hsifting : Sifting last (subtree k) k A := by
    constructor
    · exact h
    · -- The father of the root is not in the subtree.
      intro c _ _ _ hp
      have hle := le_of_mem_subtree hp
      omega
  exact hsifting.siftDown fun c => mem_subtree_of_half

/-- The root of a heap is its greatest element. -/
theorem HeapOn.le_root (h : HeapOn last (Set.Ici 1) A) (hc : 0 < c) (hlast : c ≤ last) :
    A (c - 1) ≤ A 0 := by
  induction c using Nat.strong_induction_on with
  | _ c ih =>
      rcases Nat.lt_or_ge c 2 with hlt | hge
      · rw [show c - 1 = 0 by omega]
      · have hhalf : 0 < c / 2 := by omega
        exact (h c hge hlast (Set.mem_Ici.mpr hhalf)).trans
          (ih (c / 2) (by omega) hhalf (by omega))

/-! ## Building -/

/-- Sift down the nodes from `f` to the root. -/
def buildFrom (last : ℕ) (A : ℕ → α) : ℕ → ℕ → α
  | 0 => A
  | f + 1 => buildFrom last (siftDown last A (f + 1)) f

theorem rearranges_buildFrom (last : ℕ) (A : ℕ → α) (f : ℕ) :
    Rearranges (Set.Iio last) A (buildFrom last A f) := by
  induction f generalizing A with
  | zero => exact Rearranges.refl _ _
  | succ f ih => exact (rearranges_siftDown last A (f + 1)).trans (ih _)

/-- Where the nodes behind `f` are in order already, sifting down the rest makes a heap. -/
theorem heapOn_buildFrom {f : ℕ} (h : HeapOn last (Set.Ici (f + 1)) A) :
    HeapOn last (Set.Ici 1) (buildFrom last A f) := by
  induction f generalizing A with
  | zero => exact h
  | succ f ih =>
      apply ih
      have hsifting : Sifting last (Set.Ici (f + 1)) (f + 1) A := by
        constructor
        · intro c hc hlast hp
          have hp₁ := Set.mem_Ici.mp hp.1
          have hp₂ : c / 2 ≠ f + 1 := hp.2
          exact h c hc hlast (Set.mem_Ici.mpr (by omega))
        · intro c _ _ _ hp
          have hp' := Set.mem_Ici.mp hp
          omega
      apply hsifting.siftDown
      intro c hp
      have hp' := Set.mem_Ici.mp hp
      exact Set.mem_Ici.mpr (by omega)

/-- Nodes behind the last father have no children. -/
theorem heapOn_leaves {f : ℕ} (h : last < 2 * f) : HeapOn last (Set.Ici f) A := by
  intro c _ _ hp
  have hp' := Set.mem_Ici.mp hp
  omega

theorem buildFrom_leaf_le {f : ℕ} (hf : f < c) (hleaf : last < 2 * c) :
    buildFrom last A f (c - 1) ≤ A (c - 1) := by
  induction f generalizing A with
  | zero => exact le_rfl
  | succ f ih => exact (ih (by omega)).trans (siftDown_leaf_le (by omega) hleaf (by omega))

/-- An element above all nodes up to `2 * f + 1` does not get to the root. -/
theorem buildFrom_root_lt {f : ℕ} {x : α} (h : ∀ c, 0 < c → c ≤ 2 * f + 1 → A (c - 1) < x) :
    buildFrom last A f 0 < x := by
  induction f generalizing A with
  | zero => exact h 1 one_pos le_rfl
  | succ f ih =>
      apply ih
      intro c hc hle
      by_cases hcf : c = f + 1
      · rw [hcf]
        rcases siftDown_self last A (f + 1) with hself | ⟨_, hself⟩
        · exact hself ▸ h (f + 1) (by omega) (by omega)
        · rw [hself]
          rcases greaterChild_eq_or last A (f + 1) with hg | hg <;>
            exact h _ (by omega) (by omega)
      · rw [siftDown_of_lt hc hcf (by omega)]
        exact h c hc (by omega)

/-! ### One more leaf -/

section OneMore

variable {m : ℕ}

theorem greaterChild_one_more (hk : k < m) :
    greaterChild (2 * m) A k = greaterChild (2 * m - 1) A k := by
  have hright : 2 * k + 1 ≤ 2 * m ↔ 2 * k + 1 ≤ 2 * m - 1 := by omega
  simp only [greaterChild, hright]

/-- A single last leaf matters only to a sift that reaches its father. -/
theorem siftDown_one_more (hk : k ≠ m)
    (hkeep : siftDown (2 * m - 1) A k (m - 1) = A (m - 1)) :
    siftDown (2 * m) A k = siftDown (2 * m - 1) A k := by
  fun_induction siftDown (2 * m - 1) A k with
  | case1 A k h ih =>
      have hkm : k < m := by omega
      have hlt := lt_greaterChild (2 * m - 1) A h.1.1
      have hne : greaterChild (2 * m - 1) A k ≠ m := by
        intro hg
        rw [hg, siftDown, dif_neg (by omega), comp_swap_right] at hkeep
        rw [hg] at h
        exact h.2.ne hkeep
      rw [siftDown, greaterChild_one_more hkm, dif_pos ⟨by omega, h.2⟩]
      apply ih hne
      rw [hkeep, comp_swap_of_ne (by omega) (by omega)]
  | case2 A k h =>
      rw [siftDown, dif_neg]
      rintro ⟨hk', hlt⟩
      have hkm : k < m := by omega
      rw [greaterChild_one_more hkm] at hlt
      exact h ⟨by omega, hlt⟩

theorem buildFrom_one_more {f : ℕ} (hf : f < m)
    (hkeep : buildFrom (2 * m - 1) A f (m - 1) = A (m - 1)) :
    buildFrom (2 * m) A f = buildFrom (2 * m - 1) A f := by
  induction f generalizing A with
  | zero => rfl
  | succ f ih =>
      rw [buildFrom] at hkeep
      have hstep : siftDown (2 * m - 1) A (f + 1) (m - 1) = A (m - 1) := by
        apply le_antisymm
        · exact siftDown_leaf_le (by omega) (by omega) (by omega)
        · rw [← hkeep]
          exact buildFrom_leaf_le (by omega) (by omega)
      rw [buildFrom, buildFrom, siftDown_one_more (by omega) hstep]
      exact ih (by omega) (hkeep.trans hstep.symm)

end OneMore

/-! ## Emptying -/

/-- Take the root to the end and restore the heap before it, until one element is left. -/
def extractFrom (A : ℕ → α) : ℕ → ℕ → α
  | 0 => A
  | 1 => A
  | l + 2 => extractFrom (siftDown (l + 1) (A ∘ Equiv.swap 0 (l + 1)) 1) (l + 1)

theorem rearranges_extractFrom (A : ℕ → α) (l : ℕ) :
    Rearranges (Set.Iio l) A (extractFrom A l) := by
  fun_induction extractFrom A l with
  | case1 => exact Rearranges.refl _ _
  | case2 => exact Rearranges.refl _ _
  | case3 A l ih =>
      have hsub : Set.Iio (l + 1) ⊆ Set.Iio (l + 2) := Set.Iio_subset_Iio (by omega)
      apply Rearranges.trans _ (ih.mono hsub)
      apply Rearranges.trans _ ((rearranges_siftDown _ _ _).mono hsub)
      apply Rearranges.swap
      · exact Set.mem_Iio.mpr (by omega)
      · exact Set.mem_Iio.mpr (by omega)

/-- The heap before the leaf that took the root is restored. -/
theorem heapOn_extract {l : ℕ} (h : HeapOn (l + 1) (Set.Ici 1) A) :
    HeapOn (l + 1) (Set.Ici 1) (siftDown (l + 1) (A ∘ Equiv.swap 0 (l + 1)) 1) := by
  have hsifting : Sifting (l + 1) (Set.Ici 1) 1 (A ∘ Equiv.swap 0 (l + 1)) := by
    constructor
    · intro c hc hlast hp
      have hp₂ : c / 2 ≠ 1 := hp.2
      rw [comp_swap_of_ne (by omega) (by omega), comp_swap_of_ne (by omega) (by omega)]
      exact h c hc hlast hp.1
    · intro c _ _ hle _
      omega
  apply hsifting.siftDown
  intro c hp
  have hp' := Set.mem_Ici.mp hp
  exact Set.mem_Ici.mpr (by omega)

theorem extractFrom_last (A : ℕ → α) (l : ℕ) : extractFrom A (l + 1) l = A 0 := by
  cases l with
  | zero => rfl
  | succ l =>
      have hend : l + 1 ∉ Set.Iio (l + 1) := fun h => lt_irrefl _ (Set.mem_Iio.mp h)
      rw [extractFrom, (rearranges_extractFrom _ _).eq_of_notMem hend,
        (rearranges_siftDown _ _ _).eq_of_notMem hend, comp_swap_right]

/-- Emptying a heap whose last leaf need not be in order, but is not above the root. -/
theorem extractFrom_sorted {l : ℕ} (h : HeapOn l (Set.Ici 1) A) (hroot : ∀ i ≤ l, A i ≤ A 0) :
    (contents (l + 1) (extractFrom A (l + 1))).Pairwise (· ≤ ·) := by
  rw [pairwise_contents_iff]
  induction l generalizing A with
  | zero =>
      intro i j hij hj
      omega
  | succ l ih =>
      have hheap := heapOn_extract h
      intro i j hij hj
      rcases Nat.lt_or_ge j (l + 1) with hlt | hge
      · apply ih _ _ i j hij hlt
        · exact fun c hc hlast => hheap c hc (by omega)
        · exact fun i hi => hheap.le_root i.succ_pos (by omega)
      · have hj' : j = l + 1 := by omega
        rw [hj', extractFrom_last]
        have hall : ∀ i ∈ Set.Iio (l + 1 + 1), A i ≤ A 0 :=
          fun i hi => hroot i (Nat.lt_succ_iff.mp hi)
        have hmem : i ∈ Set.Iio (l + 1 + 1) := Set.mem_Iio.mpr (by omega)
        exact (rearranges_extractFrom A (l + 1 + 1)).forall_mem (P := (· ≤ A 0)) hall i hmem

theorem le_root_of_sorted {l : ℕ}
    (h : (contents (l + 1) (extractFrom A (l + 1))).Pairwise (· ≤ ·)) {i : ℕ} (hi : i ≤ l) :
    A i ≤ A 0 := by
  rw [pairwise_contents_iff] at h
  have hall : ∀ i ∈ Set.Iio (l + 1), extractFrom A (l + 1) i ≤ A 0 := by
    intro i hi
    rw [← extractFrom_last A l]
    rcases Nat.lt_or_ge i l with hlt | hge
    · exact h i l hlt (by omega)
    · rw [show i = l from le_antisymm (Nat.lt_succ_iff.mp hi) hge]
  have hmem : i ∈ Set.Iio (l + 1) := Set.mem_Iio.mpr (by omega)
  exact (rearranges_extractFrom A (l + 1)).symm.forall_mem (P := (· ≤ A 0)) hall i hmem

end FavoriteAssignments.BinaryHeap
