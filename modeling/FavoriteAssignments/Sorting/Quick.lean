import FavoriteAssignments.Sorting.Memory

/-! # Quick sort

`quick.c` partitions with 1-based unsigned bounds. Both recursive calls stay in the segment
they come from, also where `p - 1` or `p + 1` leaves an empty one. -/

namespace FavoriteAssignments.Sorting.Quick

open Loops Rearrangement

/-! ## The program -/

/-- One round of the scan: an element below the pivot goes to the end of the lower part. -/
def scan (high : UInt32) : State × UInt32 × UInt32 → Option (State × UInt32 × UInt32)
  | (s, i, j) => do
      let x ← load s (j - 1)
      let pivot ← load s (high - 1)
      if x < pivot then
        let i := i + 1
        let s ← swap s (i - 1) (j - 1)
        return (s, i, j + 1)
      else return (s, i, j + 1)

def partition (fuel : ℕ) (s : State) (low high : UInt32) : Option (State × UInt32) := do
  let i := low - 1
  let (s, i, _) ← whileLoop
    (fun (s, i, j) => some (((cmp s high j).1, i, j), (cmp s high j).2 ≥ 0))
    (scan high) fuel (s, i, low)
  let s ← swap s i (high - 1)
  return (s, i + 1)

def quick_sorter : ℕ → State → UInt32 → UInt32 → Option State
  | 0, _, _, _ => none
  | fuel + 1, s, low, high =>
      if low < high then do
        let (s, p) ← partition fuel s low high
        let s ← quick_sorter fuel s low (p - 1)
        quick_sorter fuel s (p + 1) high
      else some s

def quick_sort (fuel : ℕ) (s : State) (n : UInt32) : Option State := quick_sorter fuel s 1 n

/-! ## The scan -/

/-- The places from `lo` on below `i` hold elements below the pivot at `high - 1`, those
from `i` to the scanned ones do not. -/
structure Scanned (s₀ s : State) (lo high i j : ℕ) : Prop where
  size : s.size = s₀.size
  rearranges : Rearranges (Set.Ico lo high) s₀.A s.A
  lo_le : lo ≤ i
  i_lt : i < j
  i_lt_high : i < high
  j_le : j ≤ high + 1
  below : ∀ k, lo ≤ k → k < i → s.A k < s.A (high - 1)
  above : ∀ k, i ≤ k → k + 1 < j → s.A (high - 1) ≤ s.A k

section Scan

variable {s₀ s : State} {lo high i j : ℕ}

/-- The scanned element is not below the pivot. -/
theorem Scanned.stay (h : Scanned s₀ s lo high i j) (hj : j ≤ high)
    (hx : s.A (high - 1) ≤ s.A (j - 1)) : Scanned s₀ s lo high i (j + 1) where
  size := h.size
  rearranges := h.rearranges
  lo_le := h.lo_le
  i_lt := h.i_lt.trans (Nat.lt_succ_self j)
  i_lt_high := h.i_lt_high
  j_le := by omega
  below := h.below
  above k hik hkj := by
    by_cases hk : k + 1 < j
    · exact h.above k hik hk
    · obtain rfl : k = j - 1 := by omega
      exact hx

/-- The scanned element is below the pivot, and changes places with the first one that is
not. -/
theorem Scanned.exchange {s' : State} (h : Scanned s₀ s lo high i j) (hj : j ≤ high)
    (hx : s.A (j - 1) < s.A (high - 1)) (hsize : s'.size = s.size)
    (hA : s'.A = s.A ∘ Equiv.swap i (j - 1)) : Scanned s₀ s' lo high (i + 1) (j + 1) := by
  have hjh : j ≠ high := by
    rintro rfl
    exact lt_irrefl _ hx
  have hi := h.i_lt
  have hlo := h.lo_le
  have hpivot : s'.A (high - 1) = s.A (high - 1) := by
    rw [hA, comp_swap_of_ne (by omega) (by omega)]
  constructor
  · rw [hsize, h.size]
  · rw [hA]
    apply h.rearranges.trans
    apply Rearranges.swap
    · exact ⟨hlo, h.i_lt_high⟩
    · exact ⟨by omega, by omega⟩
  · omega
  · omega
  · omega
  · omega
  · intro k hk hki
    rw [hpivot, hA]
    rcases Nat.lt_succ_iff_lt_or_eq.mp hki with hki | rfl
    · rw [comp_swap_of_ne (by omega) (by omega)]
      exact h.below k hk hki
    · rwa [comp_swap_left]
  · intro k hik hkj
    rw [hpivot, hA]
    by_cases hk : k = j - 1
    · subst hk
      rw [comp_swap_right]
      exact h.above i le_rfl (by omega)
    · rw [comp_swap_of_ne (by omega) hk]
      exact h.above k (by omega) (by omega)

end Scan

section Partition

variable {s₀ s : State} {low high : UInt32}

theorem scan_yields {i j : UInt32} {lo : ℕ} (hsize : high.toNat ≤ s₀.size)
    (hhigh : high.toNat + 1 < 2 ^ 32) (hj : j ≤ high)
    (h : Scanned s₀ s lo high.toNat i.toNat j.toNat) :
    Yields (scan high (s, i, j)) fun (s', i', j') =>
      Scanned s₀ s' lo high.toNat i'.toNat j'.toNat ∧ j'.toNat = j.toNat + 1 := by
  have hj' := UInt32.le_iff_toNat_le.mp hj
  have hi := h.i_lt
  have hih := h.i_lt_high
  have hsz := h.size
  have hjpred : (j - 1).toNat = j.toNat - 1 := toNat_pred (by omega)
  have hhpred : (high - 1).toNat = high.toNat - 1 := toNat_pred (by omega)
  have hjsucc : (j + 1).toNat = j.toNat + 1 := toNat_succ (by omega)
  have hisucc : (i + 1).toNat = i.toNat + 1 := toNat_succ (by omega)
  rw [scan, load_eq (by omega), load_eq (by omega), hjpred, hhpred]
  simp only [Option.bind_eq_bind, Option.bind_some]
  split
  · next hx =>
      rw [add_sub_cancel_right]
      apply (swap_yields (by omega) (by omega)).bind
      intro s' hs'
      rw [hjpred] at hs'
      simp only [Option.pure_def, yields_some, hisucc, hjsucc]
      exact ⟨h.exchange hj' hx hs'.1 hs'.2, trivial⟩
  · next hx =>
      simp only [Option.pure_def, yields_some, hjsucc]
      exact ⟨h.stay hj' (not_lt.mp hx), trivial⟩

/-- The pivot stands at `p - 1`, between the smaller elements and the others. -/
structure Partitioned (s₀ s : State) (lo high p : ℕ) : Prop where
  size : s.size = s₀.size
  rearranges : Rearranges (Set.Ico lo high) s₀.A s.A
  lo_lt : lo < p
  p_le : p ≤ high
  below : ∀ k, lo ≤ k → k + 1 < p → s.A k < s.A (p - 1)
  above : ∀ k, p ≤ k → k < high → s.A (p - 1) ≤ s.A k

/-- The last exchange puts the pivot between the two parts. -/
theorem Scanned.finish {s' : State} {lo high i : ℕ} (h : Scanned s₀ s lo high i (high + 1))
    (hsize : s'.size = s.size) (hA : s'.A = s.A ∘ Equiv.swap i (high - 1)) :
    Partitioned s₀ s' lo high (i + 1) := by
  have hlo := h.lo_le
  have hi := h.i_lt_high
  have hpivot : s'.A i = s.A (high - 1) := by
    rw [hA, comp_swap_left]
  constructor
  · rw [hsize, h.size]
  · rw [hA]
    apply h.rearranges.trans
    apply Rearranges.swap
    · exact ⟨hlo, hi⟩
    · exact ⟨by omega, by omega⟩
  · omega
  · omega
  · intro k hk hki
    rw [Nat.add_sub_cancel, hpivot, hA,
      comp_swap_of_ne (by omega) (by omega)]
    exact h.below k hk (by omega)
  · intro k hik hkh
    rw [Nat.add_sub_cancel, hpivot, hA]
    by_cases hk : k = high - 1
    · subst hk
      rw [comp_swap_right]
      exact h.above i le_rfl (by omega)
    · rw [comp_swap_of_ne (by omega) hk]
      exact h.above k (by omega) (by omega)

theorem partition_yields {fuel : ℕ} (hlow : 1 ≤ low.toNat) (hlt : low < high)
    (hsize : high.toNat ≤ s.size) (hhigh : high.toNat + 1 < 2 ^ 32)
    (hfuel : high.toNat + 1 - low.toNat < fuel) :
    Yields (partition fuel s low high) fun (s', p) =>
      Partitioned s s' (low.toNat - 1) high.toNat p.toNat := by
  have hlt' := UInt32.lt_iff_toNat_lt.mp hlt
  have hloop : Yields (whileLoop
      (fun (s, i, j) => some (((cmp s high j).1, i, j), (cmp s high j).2 ≥ 0))
      (scan high) fuel (s, low - 1, low)) fun (s', i, _) =>
        Scanned s s' (low.toNat - 1) high.toNat i.toNat (high.toNat + 1) := by
    apply whileLoop_rule
      (fun (s', i, j) => Scanned s s' (low.toNat - 1) high.toNat i.toNat j.toNat)
      (fun (_, _, j) => high.toNat + 1 - j.toNat) _ _ hfuel
    · rintro ⟨s', i, j⟩ h
      have hcounted : Scanned s (cmp s' high j).1 (low.toNat - 1) high.toNat i.toNat j.toNat :=
        ⟨h.size, h.rearranges, h.lo_le, h.i_lt, h.i_lt_high, h.j_le, h.below, h.above⟩
      simp only [yields_some, ge_iff_le, cmp_nonneg_iff, decide_eq_true_eq]
      split
      · next hj =>
          have hj' := UInt32.le_iff_toNat_le.mp hj
          apply (scan_yields hsize hhigh hj hcounted).mono
          rintro ⟨s'', i', j'⟩ ⟨h', hsucc⟩
          exact ⟨h', by dsimp only; omega⟩
      · next hj =>
          have hj' := mt UInt32.le_iff_toNat_le.mpr hj
          have := h.j_le
          obtain hend : j.toNat = high.toNat + 1 := by omega
          rwa [hend] at hcounted
    · have hpred : (low - 1).toNat = low.toNat - 1 := toNat_pred hlow
      dsimp only
      rw [hpred]
      refine ⟨rfl, Rearranges.refl _ _, le_rfl, by omega, by omega, by omega, ?_, ?_⟩
      · intro k hk hk'
        omega
      · intro k hk hk'
        omega
  rw [partition]
  apply hloop.bind
  rintro ⟨s', i, j⟩ h
  have hi := h.i_lt_high
  have hsz := h.size
  have hpred : (high - 1).toNat = high.toNat - 1 := toNat_pred (by omega)
  apply (swap_yields (by omega) (by omega)).bind
  intro s'' hs''
  rw [hpred] at hs''
  rw [Option.pure_def, yields_some]
  dsimp only
  rw [toNat_succ (by omega)]
  exact h.finish hs''.1 hs''.2

end Partition

/-! ## The recursion -/

structure Sorted (s₀ s : State) (lo high : ℕ) : Prop where
  size : s.size = s₀.size
  rearranges : Rearranges (Set.Ico lo high) s₀.A s.A
  ordered : ∀ i j, lo ≤ i → i < j → j < high → s.A i ≤ s.A j

section Sorter

variable {s s₁ s₂ s₃ : State} {low high : UInt32} {lo p : ℕ}

/-- Sorting both sides of the pivot sorts the segment. -/
theorem Partitioned.sort (h : Partitioned s s₁ lo high.toNat p) (hleft : Sorted s₁ s₂ lo (p - 1))
    (hright : Sorted s₂ s₃ p high.toNat) : Sorted s s₃ lo high.toNat := by
  have hlo := h.lo_lt
  have hp := h.p_le
  -- the pivot and the left part are out of reach of the second call
  have hkeep₃ : ∀ k, k < p → s₃.A k = s₂.A k := by
    intro k hk
    apply hright.rearranges.eq_of_notMem
    intro hmem
    exact absurd hmem.1 (not_le.mpr hk)
  have hkeep₂ : ∀ k, p ≤ k + 1 → s₂.A k = s₁.A k := by
    intro k hk
    apply hleft.rearranges.eq_of_notMem
    intro hmem
    have := hmem.2
    omega
  have hpivot : s₃.A (p - 1) = s₁.A (p - 1) := by
    rw [hkeep₃ _ (by omega), hkeep₂ _ (by omega)]
  have hbelow : ∀ k, lo ≤ k → k < p - 1 → s₃.A k ≤ s₃.A (p - 1) := by
    intro k hk hkp
    rw [hpivot, hkeep₃ k (by omega)]
    apply le_of_lt
    apply hleft.rearranges.forall_mem (P := fun x => x < s₁.A (p - 1)) _ k ⟨hk, hkp⟩
    intro i hi
    exact h.below i hi.1 (by have := hi.2; omega)
  have habove : ∀ k, p ≤ k → k < high.toNat → s₃.A (p - 1) ≤ s₃.A k := by
    intro k hk hkh
    rw [hpivot]
    apply hright.rearranges.forall_mem (P := fun x => s₁.A (p - 1) ≤ x) _ k ⟨hk, hkh⟩
    intro i hi
    rw [hkeep₂ i (by have := hi.1; omega)]
    exact h.above i hi.1 hi.2
  constructor
  · rw [hright.size, hleft.size, h.size]
  · apply h.rearranges.trans
    apply (hleft.rearranges.mono (Set.Ico_subset_Ico le_rfl (by omega))).trans
    exact hright.rearranges.mono (Set.Ico_subset_Ico (by omega) le_rfl)
  · intro i j hi hij hj
    rcases lt_trichotomy i (p - 1) with hip | rfl | hip
    · rcases lt_trichotomy j (p - 1) with hjp | rfl | hjp
      · rw [hkeep₃ i (by omega), hkeep₃ j (by omega)]
        exact hleft.ordered i j hi hij hjp
      · exact hbelow i hi hip
      · exact (hbelow i hi hip).trans (habove j (by omega) hj)
    · exact habove j (by omega) hj
    · exact hright.ordered i j (by omega) hij hj

theorem quick_sorter_yields {fuel : ℕ} (hlow : 1 ≤ low.toNat) (hsize : high.toNat ≤ s.size)
    (hhigh : high.toNat + 1 < 2 ^ 32) (hfuel : high.toNat + 2 - low.toNat < fuel) :
    Yields (quick_sorter fuel s low high) fun s' => Sorted s s' (low.toNat - 1) high.toNat := by
  induction fuel generalizing s low high with
  | zero => omega
  | succ fuel ih =>
      rw [quick_sorter]
      split
      · next hlt =>
          have hlt' := UInt32.lt_iff_toNat_lt.mp hlt
          apply (partition_yields hlow hlt hsize hhigh (by omega)).bind
          rintro ⟨s₁, p⟩ h₁
          have hlo := h₁.lo_lt
          have hp := h₁.p_le
          have hsize₁ := h₁.size
          have hpred : (p - 1).toNat = p.toNat - 1 := toNat_pred (by omega)
          have hsucc : (p + 1).toNat = p.toNat + 1 := toNat_succ (by omega)
          have hleft : Yields (quick_sorter fuel s₁ low (p - 1)) fun s' =>
              Sorted s₁ s' (low.toNat - 1) (p - 1).toNat :=
            ih hlow (by omega) (by omega) (by omega)
          apply hleft.bind
          intro s₂ h₂
          have hsize₂ := h₂.size
          have hright : Yields (quick_sorter fuel s₂ (p + 1) high) fun s' =>
              Sorted s₂ s' ((p + 1).toNat - 1) high.toNat :=
            ih (by omega) (by omega) hhigh (by omega)
          apply hright.mono
          intro s₃ h₃
          rw [hpred] at h₂
          rw [hsucc, Nat.add_sub_cancel] at h₃
          exact h₁.sort h₂ h₃
      · next hge =>
          have hge' := mt UInt32.lt_iff_toNat_lt.mpr hge
          rw [yields_some]
          refine ⟨rfl, Rearranges.refl _ _, ?_⟩
          intro i j hi hij hj
          omega

/-! ## The calls and the whole sort -/

/-- The calls of `quick_sorter` that the call with the given fuel, memory and bounds makes,
directly or through others, itself included. -/
inductive Called (fuel₀ : ℕ) (s₀ : State) (low₀ high₀ : UInt32) :
    ℕ → State → UInt32 → UInt32 → Prop where
  | self : Called fuel₀ s₀ low₀ high₀ fuel₀ s₀ low₀ high₀
  | left {fuel s s' low high p} : Called fuel₀ s₀ low₀ high₀ (fuel + 1) s low high →
      low < high → partition fuel s low high = some (s', p) →
      Called fuel₀ s₀ low₀ high₀ fuel s' low (p - 1)
  | right {fuel s s' s'' low high p} : Called fuel₀ s₀ low₀ high₀ (fuel + 1) s low high →
      low < high → partition fuel s low high = some (s', p) →
      quick_sorter fuel s' low (p - 1) = some s'' →
      Called fuel₀ s₀ low₀ high₀ fuel s'' (p + 1) high

/-- The bounds of a call: a segment of the array, possibly an empty one. -/
structure InRange (n fuel : ℕ) (s : State) (low high : UInt32) : Prop where
  size : s.size = n
  one_le : 1 ≤ low.toNat
  low_le : low.toNat ≤ high.toNat + 1
  high_le : high.toNat ≤ n
  enough : high.toNat + 2 - low.toNat < fuel

theorem InRange.partitioned {n fuel : ℕ} {s' : State} {p : UInt32} (hn : n < 2 ^ 31)
    (h : InRange n (fuel + 1) s low high) (hlt : low < high)
    (hpart : partition fuel s low high = some (s', p)) :
    Partitioned s s' (low.toNat - 1) high.toNat p.toNat := by
  have hsize := h.size
  have hhigh := h.high_le
  have henough := h.enough
  have hlt' := UInt32.lt_iff_toNat_lt.mp hlt
  exact (partition_yields h.one_le hlt (by omega) (by omega) (by omega)).of_eq_some hpart

theorem InRange.left {n fuel : ℕ} {s' : State} {p : UInt32}
    (h : InRange n (fuel + 1) s low high)
    (hpart : Partitioned s s' (low.toNat - 1) high.toNat p.toNat) :
    InRange n fuel s' low (p - 1) := by
  have hone := h.one_le
  have hhigh := h.high_le
  have henough := h.enough
  have hlo := hpart.lo_lt
  have hp := hpart.p_le
  have hpred : (p - 1).toNat = p.toNat - 1 := toNat_pred (by omega)
  exact ⟨hpart.size.trans h.size, hone, by omega, by omega, by omega⟩

theorem InRange.right {n fuel : ℕ} {s' : State} {p : UInt32} (hn : n < 2 ^ 31)
    (h : InRange n (fuel + 1) s low high)
    (hpart : Partitioned s s₁ (low.toNat - 1) high.toNat p.toNat) (hsize : s'.size = s₁.size) :
    InRange n fuel s' (p + 1) high := by
  have hone := h.one_le
  have hhigh := h.high_le
  have henough := h.enough
  have hlo := hpart.lo_lt
  have hp := hpart.p_le
  have hsucc : (p + 1).toNat = p.toNat + 1 := toNat_succ (by omega)
  exact ⟨(hsize.trans hpart.size).trans h.size, by omega, by omega, hhigh, by omega⟩

theorem Called.inRange {fuel₀ fuel n : ℕ} {s₀ : State} {low₀ high₀ : UInt32} (hn : n < 2 ^ 31)
    (h₀ : InRange n fuel₀ s₀ low₀ high₀) (h : Called fuel₀ s₀ low₀ high₀ fuel s low high) :
    InRange n fuel s low high := by
  induction h with
  | self => exact h₀
  | left _ hlt hpart ih => exact ih.left (ih.partitioned hn hlt hpart)
  | right _ hlt hpart hleft ih =>
      have hp := ih.partitioned hn hlt hpart
      have hl := ih.left hp
      have hsize := hl.size
      have hhigh := hl.high_le
      have hsorted := (quick_sorter_yields hl.one_le (by omega) (by omega) hl.enough).of_eq_some
        hleft
      exact ih.right hn hp hsorted.size

/-- `quick_sort` ends on every array of fewer than `2 ^ 31` elements, without an access
outside of the array, in a sorted permutation, and every recursive call stays in range. -/
theorem quick_sort_sorts (s : State) (n : UInt32) (fuel : ℕ) (hn : n.toNat < 2 ^ 31)
    (hsize : s.size = n.toNat) (hfuel : n.toNat + 1 < fuel) :
    (∃ s', quick_sort fuel s n = some s' ∧
      (contents n.toNat s'.A).Perm (contents n.toNat s.A) ∧
      (contents n.toNat s'.A).Pairwise (· ≤ ·)) ∧
    ∀ fuel' s' low high, Called fuel s 1 n fuel' s' low high →
      1 ≤ low.toNat ∧ low.toNat ≤ high.toNat + 1 ∧ high.toNat ≤ n.toNat := by
  constructor
  · have hsorted : Yields (quick_sort fuel s n) fun s' => Sorted s s' 0 n.toNat :=
      quick_sorter_yields le_rfl hsize.ge (by omega) (by simpa using hfuel)
    obtain ⟨s', hs', h⟩ := hsorted
    refine ⟨s', hs', ?_, ?_⟩
    · exact (h.rearranges.mono fun _ hi => hi.2).perm
    · rw [pairwise_contents_iff]
      intro i j hij hj
      exact h.ordered i j (Nat.zero_le i) hij hj
  · intro fuel' s' low high hcall
    have h := hcall.inRange hn ⟨hsize, le_rfl, by simp, le_rfl, by simpa using hfuel⟩
    exact ⟨h.one_le, h.low_le, h.high_le⟩

theorem quick_sort_sorts_three :
    (∃ s', quick_sort 10 (ofList [3, 1, 2]) 3 = some s' ∧
      (contents 3 s'.A).Perm (contents 3 (ofList [3, 1, 2]).A) ∧
      (contents 3 s'.A).Pairwise (· ≤ ·)) ∧
    ∀ fuel' s' low high, Called 10 (ofList [3, 1, 2]) 1 3 fuel' s' low high →
      1 ≤ low.toNat ∧ low.toNat ≤ high.toNat + 1 ∧ high.toNat ≤ 3 :=
  quick_sort_sorts (ofList [3, 1, 2]) 3 10 (by decide) rfl (by decide)

end Sorter

end FavoriteAssignments.Sorting.Quick
