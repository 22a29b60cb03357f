import FavoriteAssignments.Library.Lockstep
import FavoriteAssignments.Sorting.Batcher
import FavoriteAssignments.Sorting.Heap
import FavoriteAssignments.Sorting.Quick
import Mathlib.Data.Nat.Log
import Mathlib.Data.Set.Monotone
import Mathlib.Tactic.Linarith

/-! # What the counters say

The number of comparisons that each sort adds to `stats`. -/

namespace FavoriteAssignments.Sorting

open Loops

/-- `c` comparisons have been counted between two states. -/
def Spent (c : ℕ) (s s' : State) : Prop :=
  s'.stats.compares = s.stats.compares + UInt64.ofNat c

section Spent

variable {s s₁ s₂ : State} {i j x y : UInt32} {c c' : ℕ}

theorem Spent.refl (s : State) : Spent 0 s s := by
  simp [Spent]

theorem Spent.trans (h : Spent c s s₁) (h' : Spent c' s₁ s₂) : Spent (c + c') s s₂ := by
  rw [Spent, h', h, UInt64.ofNat_add, add_assoc]

theorem cmp_spent : Spent 1 s (cmp s x y).1 := rfl

theorem move_spent : Spent 0 s (move s x).1 := by
  simp [Spent, move]

theorem load_ends : Ends (load s i) fun _ => i.toNat < s.size := by
  intro x h
  rw [load] at h
  split at h
  · assumption
  · cases h

theorem store_spent : Ends (store s i x) fun s' => Spent 0 s s' := by
  intro s' h
  rw [store] at h
  split at h
  · cases h
    simp [Spent]
  · cases h

theorem swap_spent : Ends (swap s i j) fun s' => Spent 0 s s' := by
  rw [swap]
  refine load_ends.bind fun t _ => load_ends.bind fun y _ => store_spent.bind fun s₁ h₁ => ?_
  exact store_spent.mono fun s₂ h₂ => (h₁.trans h₂ : Spent (0 + 0) _ _)

end Spent

/-! ## Batcher sort -/

namespace Batcher

/-- The same size and the same count, whatever the elements. -/
structure SameCount (s t : State) : Prop where
  size : s.size = t.size
  compares : s.stats.compares = t.stats.compares

variable {s t : State}

theorem comparator_eq_none {x y : UInt32} (h : ¬ (x.toNat < s.size ∧ y.toNat < s.size)) :
    comparator s x y = none := by
  by_cases hx : x.toNat < s.size
  · have hy : ¬ y.toNat < s.size := fun hy => h ⟨hx, hy⟩
    simp [comparator, load, hx, hy]
  · simp [comparator, load, hx]

theorem comparator_spent {x y : UInt32} : Ends (comparator s x y) (Spent 1 s) := by
  rw [comparator]
  refine load_ends.bind fun a _ => load_ends.bind fun b _ => ?_
  dsimp only
  split
  · exact swap_spent.mono fun s' hs' => cmp_spent.trans hs'
  · rw [Option.pure_def, ends_some]
    exact cmp_spent

theorem comparator_rel (x y : UInt32) (h : SameCount s t) :
    Option.Rel SameCount (comparator s x y) (comparator t x y) := by
  by_cases hxy : x.toNat < s.size ∧ y.toNat < s.size
  · obtain ⟨s', hs, hsize, -⟩ := comparator_yields hxy.1 hxy.2
    obtain ⟨t', ht, hsize', -⟩ := comparator_yields (h.size ▸ hxy.1) (h.size ▸ hxy.2)
    have hspent := comparator_spent s' hs
    have hspent' := comparator_spent t' ht
    rw [hs, ht]
    exact .some ⟨by rw [hsize, hsize', h.size], by rw [hspent, hspent', h.compares]⟩
  · rw [comparator_eq_none hxy, comparator_eq_none (h.size ▸ hxy)]
    exact .none

theorem row_rel (n p r d : UInt32) (h : SameCount s t) :
    Option.Rel SameCount (row s n p r d) (row t n p r d) := by
  rw [row, row]
  refine rel_bind_same _ fun bound => forUp_rel 0 bound (fun i s t hst => ?_) h
  split
  · exact comparator_rel i (i + d) hst
  · exact .some hst

/-- The memories count alike and the variables of the loop agree. -/
def SameLoop {V : Type*} (v w : State × V) : Prop := SameCount v.1 w.1 ∧ v.2 = w.2

theorem merge_rel (fuel : ℕ) (n p q r d : UInt32) (h : SameCount s t) :
    Option.Rel SameCount (merge fuel n p s q r d) (merge fuel n p t q r d) := by
  rw [merge, merge]
  refine rel_bind (whileLoop_rel (R := SameLoop) fuel ?_ ?_ ⟨h, rfl⟩) fun v w hvw => .some hvw.1
  · rintro ⟨s', vars⟩ ⟨t', vars'⟩ ⟨hst, rfl⟩
    exact .some ⟨⟨hst, rfl⟩, rfl⟩
  · rintro ⟨s', q', r', d'⟩ ⟨t', vars⟩ ⟨hst, rfl⟩
    dsimp only
    rw [Option.map_eq_bind, Option.map_eq_bind]
    exact rel_bind (row_rel n p r' d' hst) fun s t hst => .some ⟨hst, rfl⟩

/-- Batcher's sort makes the same number of comparisons on all arrays of one size. -/
theorem batcher_sort_rel (fuel : ℕ) (n : UInt32) (h : SameCount s t) :
    Option.Rel SameCount (batcher_sort fuel s n) (batcher_sort fuel t n) := by
  rw [batcher_sort, batcher_sort]
  split
  · exact .some h
  · refine rel_bind_same _ fun k => rel_bind_same _ fun p => ?_
    refine rel_bind (whileLoop_rel (R := SameLoop) fuel ?_ ?_ ⟨h, rfl⟩) fun v w hvw => .some hvw.1
    · rintro ⟨s', p'⟩ ⟨t', p''⟩ ⟨hst, rfl⟩
      exact .some ⟨⟨hst, rfl⟩, rfl⟩
    · rintro ⟨s', p'⟩ ⟨t', p''⟩ ⟨hst, rfl⟩
      refine rel_bind_same _ fun q => ?_
      exact rel_bind (merge_rel fuel n p' q 0 p' hst) fun s t hst => .some ⟨hst, rfl⟩

theorem batcher_sort_rel_three :
    Option.Rel SameCount (batcher_sort 10 (ofList [3, 1, 2]) 3)
      (batcher_sort 10 (ofList [1, 2, 3]) 3) :=
  batcher_sort_rel 10 3 ⟨rfl, rfl⟩

end Batcher

/-! ## Quick sort -/

namespace Quick

variable {s : State} {low high : UInt32} {fuel : ℕ}

theorem scan_spent {i j : UInt32} : Ends (scan high (s, i, j)) fun (s', _, j') =>
    Spent 0 s s' ∧ j' = j + 1 := by
  rw [scan]
  refine load_ends.bind fun x _ => load_ends.bind fun pivot _ => ?_
  split
  · refine swap_spent.bind fun s' hs' => ?_
    rw [Option.pure_def, ends_some]
    exact ⟨hs', rfl⟩
  · rw [Option.pure_def, ends_some]
    exact ⟨Spent.refl s, rfl⟩

/-- `cmp` is called on the indices: once for each element of the segment and once more. -/
theorem partition_spent (hle : low ≤ high) (hhigh : high.toNat + 1 < 2 ^ 32) :
    Ends (partition fuel s low high) fun r => Spent (high.toNat + 2 - low.toNat) s r.1 := by
  have hle' := UInt32.le_iff_toNat_le.mp hle
  let I : State × UInt32 × UInt32 → Prop := fun v =>
    low.toNat ≤ v.2.2.toNat ∧ v.2.2.toNat ≤ high.toNat + 1 ∧
      Spent (v.2.2.toNat - low.toNat) s v.1
  rw [partition]
  refine (whileLoop_ends I (Q := fun v => Spent (high.toNat + 2 - low.toNat) s v.1)
    ?_ ?_).bind ?_
  · rintro ⟨s', i, j⟩ ⟨hlow, hj, hspent⟩
    dsimp only at hlow hj hspent
    have hcounted : Spent (j.toNat - low.toNat + 1) s (cmp s' high j).1 :=
      hspent.trans cmp_spent
    simp only [ends_some, ge_iff_le, cmp_nonneg_iff, decide_eq_true_eq]
    split
    · next hjh =>
        have hjh' := UInt32.le_iff_toNat_le.mp hjh
        have hsucc : (j + 1).toNat = j.toNat + 1 := toNat_succ (by omega)
        refine scan_spent.mono ?_
        rintro ⟨s'', i', j'⟩ ⟨hscan, rfl⟩
        refine ⟨by dsimp only; omega, by dsimp only; omega, ?_⟩
        dsimp only
        rw [hsucc, Nat.sub_add_comm hlow]
        exact hcounted.trans hscan
    · next hjh =>
        have hjh' := mt UInt32.le_iff_toNat_le.mpr hjh
        rwa [show high.toNat + 2 - low.toNat = j.toNat - low.toNat + 1 by omega]
  · exact ⟨le_rfl, by dsimp only; omega, by rw [Nat.sub_self]; exact Spent.refl s⟩
  · rintro ⟨s', i, j⟩ hspent
    refine swap_spent.bind fun s'' hs'' => ?_
    rw [Option.pure_def, ends_some]
    exact hspent.trans hs''

/-- The comparisons of a segment of `m` elements when every pivot ends up at one of its ends. -/
def worst (m : ℕ) : ℕ := (m - 1) * (m + 4) / 2

theorem two_mul_worst (m : ℕ) : 2 * worst m = (m - 1) * (m + 4) := by
  refine Nat.mul_div_cancel' ?_
  cases m with
  | zero => simp
  | succ m =>
      obtain ⟨k, hk⟩ := (Nat.even_mul_succ_self m).two_dvd
      exact ⟨k + 2 * m, by rw [Nat.add_sub_cancel]; linarith⟩

theorem worst_succ {a : ℕ} (h : 1 ≤ a) : worst (a + 1) = a + 2 + worst a := by
  have hsum := two_mul_worst (a + 1)
  have ha := two_mul_worst a
  obtain ⟨a, rfl⟩ : ∃ b, a = b + 1 := ⟨a - 1, by omega⟩
  simp only [Nat.add_sub_cancel] at hsum ha
  linarith

/-- No split of the other elements costs more than leaving one side empty. -/
theorem worst_split {a b : ℕ} (h : 1 ≤ a + b) :
    a + b + 2 + worst a + worst b ≤ worst (a + b + 1) := by
  rw [worst_succ h]
  have hsum := two_mul_worst (a + b)
  have ha := two_mul_worst a
  have hb := two_mul_worst b
  rcases a with _ | a
  · simp_all
  rcases b with _ | b
  · simp_all
  simp only [Nat.add_sub_cancel, show a + 1 + (b + 1) - 1 = a + b + 1 by omega] at hsum ha hb
  nlinarith

/-- A segment of `m` elements never costs more than `worst m`. -/
theorem quick_sorter_spent (hlow : 1 ≤ low.toNat) (hsize : high.toNat ≤ s.size)
    (hhigh : high.toNat + 1 < 2 ^ 32) (hfuel : high.toNat + 2 - low.toNat < fuel) :
    Ends (quick_sorter fuel s low high) fun s' =>
      ∃ c ≤ worst (high.toNat + 1 - low.toNat), Spent c s s' := by
  induction fuel generalizing s low high with
  | zero => exact ends_none
  | succ fuel ih =>
      rw [quick_sorter]
      split
      · next hlt =>
          have hlt' := UInt32.lt_iff_toNat_lt.mp hlt
          refine ((partition_yields hlow hlt hsize hhigh (by omega)).ends.and
            (partition_spent hlt.le hhigh)).bind ?_
          rintro ⟨s₁, p⟩ ⟨h₁, hspent⟩
          have hlo := h₁.lo_lt
          have hp := h₁.p_le
          have hsize₁ := h₁.size
          have hpred : (p - 1).toNat = p.toNat - 1 := toNat_pred (by omega)
          have hsucc : (p + 1).toNat = p.toNat + 1 := toNat_succ (by omega)
          refine ((quick_sorter_yields hlow (by omega) (by omega) (by omega)).ends.and
            (ih hlow (by omega) (by omega) (by omega))).bind ?_
          rintro s₂ ⟨h₂, c, hc, hspent₂⟩
          have hsize₂ := h₂.size
          refine (ih (by omega) (by omega) hhigh (by omega)).mono ?_
          rintro s₃ ⟨c', hc', hspent₃⟩
          refine ⟨_, ?_, (hspent.trans hspent₂).trans hspent₃⟩
          have hsplit := worst_split (a := p.toNat - low.toNat) (b := high.toNat - p.toNat)
            (by omega)
          rw [show p.toNat - low.toNat + (high.toNat - p.toNat) = high.toNat - low.toNat by omega,
            show high.toNat - low.toNat + 1 = high.toNat + 1 - low.toNat by omega] at hsplit
          rw [show (p - 1).toNat + 1 - low.toNat = p.toNat - low.toNat by omega] at hc
          rw [show high.toNat + 1 - (p + 1).toNat = high.toNat - p.toNat by omega] at hc'
          omega
      · rw [ends_some]
        exact ⟨0, Nat.zero_le _, Spent.refl s⟩

/-! ### Ascending arrays -/

theorem swap_same {i j : UInt32} (h : i.toNat = j.toNat) (hj : j.toNat < s.size) :
    Ends (swap s i j) fun s' => s'.size = s.size ∧ s'.A = s.A := by
  refine (swap_yields (h ▸ hj) hj).ends.mono fun s' hs' => ⟨hs'.1, ?_⟩
  rw [hs'.2, h, Equiv.swap_self]
  rfl

/-- The largest element is the pivot, and every element changes places with itself. -/
structure Ascending (s₀ : State) (high : ℕ) (v : State × UInt32 × UInt32) : Prop where
  size : v.1.size = s₀.size
  same : v.1.A = s₀.A
  i_eq : v.2.1.toNat = min (v.2.2.toNat - 1) (high - 1)

theorem scan_ascending {v : State × UInt32 × UInt32} {lo : ℕ} (hsize : high.toNat ≤ s.size)
    (hhigh : high.toNat + 1 < 2 ^ 32) (hasc : StrictMonoOn s.A (Set.Ico lo high.toNat))
    (hlo : lo + 1 ≤ v.2.2.toNat) (hj : v.2.2 ≤ high) (h : Ascending s high.toNat v) :
    Ends (scan high v) (Ascending s high.toNat) := by
  obtain ⟨s', i, j⟩ := v
  have hj' := UInt32.le_iff_toNat_le.mp hj
  have hi := h.i_eq
  have hsz := h.size
  dsimp only at hlo hj hj' hi hsz
  have hjpred : (j - 1).toNat = j.toNat - 1 := toNat_pred (by omega)
  have hhpred : (high - 1).toNat = high.toNat - 1 := toNat_pred (by omega)
  have hjsucc : (j + 1).toNat = j.toNat + 1 := toNat_succ (by omega)
  have hisucc : (i + 1).toNat = i.toNat + 1 := toNat_succ (by omega)
  have hbelow : s'.A (j.toNat - 1) < s'.A (high.toNat - 1) ↔ j.toNat < high.toNat := by
    rw [h.same, hasc.lt_iff_lt ⟨by omega, by omega⟩ ⟨by omega, by omega⟩]
    omega
  rw [scan, load_eq (by omega), load_eq (by omega), hjpred, hhpred]
  simp only [Option.bind_eq_bind, Option.bind_some, hbelow]
  split
  · next hlt =>
      rw [add_sub_cancel_right]
      refine (swap_same (by omega) (by omega)).bind fun s'' hs'' => ?_
      rw [Option.pure_def, ends_some]
      exact ⟨hs''.1.trans hsz, hs''.2.trans h.same, by dsimp only; omega⟩
  · rw [Option.pure_def, ends_some]
    exact ⟨hsz, h.same, by dsimp only; omega⟩

theorem partition_ascending (hlow : 1 ≤ low.toNat) (hlt : low < high)
    (hsize : high.toNat ≤ s.size) (hhigh : high.toNat + 1 < 2 ^ 32)
    (hasc : StrictMonoOn s.A (Set.Ico (low.toNat - 1) high.toNat)) :
    Ends (partition fuel s low high) fun r => r.1.A = s.A ∧ r.2 = high := by
  have hlt' := UInt32.lt_iff_toNat_lt.mp hlt
  have hhpred : (high - 1).toNat = high.toNat - 1 := toNat_pred (by omega)
  have hlpred : (low - 1).toNat = low.toNat - 1 := toNat_pred (by omega)
  rw [partition]
  refine (whileLoop_ends
    (fun v => Ascending s high.toNat v ∧ low.toNat ≤ v.2.2.toNat)
    (Q := fun v => Ascending s high.toNat v ∧ high.toNat < v.2.2.toNat) ?_ ?_).bind ?_
  · rintro ⟨s', i, j⟩ ⟨h, hj⟩
    have hcounted : Ascending s high.toNat ((cmp s' high j).1, i, j) := ⟨h.size, h.same, h.i_eq⟩
    simp only [ends_some, ge_iff_le, cmp_nonneg_iff, decide_eq_true_eq]
    split
    · next hjh =>
        have hjh' := UInt32.le_iff_toNat_le.mp hjh
        have hsucc : (j + 1).toNat = j.toNat + 1 := toNat_succ (by omega)
        refine ((scan_ascending hsize hhigh hasc (by dsimp only at hj ⊢; omega) hjh hcounted).and
          scan_spent).mono ?_
        rintro ⟨s'', i', j'⟩ ⟨h', -, rfl⟩
        exact ⟨h', by dsimp only at hj ⊢; omega⟩
    · next hjh => exact ⟨hcounted, by simpa [UInt32.le_iff_toNat_le] using hjh⟩
  · exact ⟨⟨rfl, rfl, by dsimp only; omega⟩, le_rfl⟩
  · rintro ⟨s', i, j⟩ ⟨h, hj⟩
    have hi := h.i_eq
    have hsz := h.size
    dsimp only at hi hj hsz
    have hisucc : (i + 1).toNat = i.toNat + 1 := toNat_succ (by omega)
    refine (swap_same (by omega) (by omega)).bind fun s'' hs'' => ?_
    rw [Option.pure_def, ends_some]
    exact ⟨hs''.2.trans h.same, UInt32.toNat_inj.mp (by dsimp only; omega)⟩

theorem quick_sorter_ascending (hlow : 1 ≤ low.toNat) (hsize : high.toNat ≤ s.size)
    (hhigh : high.toNat + 1 < 2 ^ 32) (hfuel : high.toNat + 2 - low.toNat < fuel)
    (hasc : StrictMonoOn s.A (Set.Ico (low.toNat - 1) high.toNat)) :
    Ends (quick_sorter fuel s low high) (Spent (worst (high.toNat + 1 - low.toNat)) s) := by
  induction fuel generalizing s low high with
  | zero => exact ends_none
  | succ fuel ih =>
      rw [quick_sorter]
      split
      · next hlt =>
          have hlt' := UInt32.lt_iff_toNat_lt.mp hlt
          refine (((partition_yields hlow hlt hsize hhigh (by omega)).ends.and
            (partition_spent hlt.le hhigh)).and
            (partition_ascending hlow hlt hsize hhigh hasc)).bind ?_
          rintro ⟨s₁, p⟩ ⟨⟨h₁, hspent⟩, hsame, hp⟩
          obtain rfl : p = high := hp
          have hsize₁ := h₁.size
          have hpred : (p - 1).toNat = p.toNat - 1 := toNat_pred (by omega)
          have hsucc : (p + 1).toNat = p.toNat + 1 := toNat_succ (by omega)
          dsimp only at hsame hspent
          refine (ih hlow (by omega) (by omega) (by omega) ?_).bind fun s₂ hspent₂ => ?_
          · rw [hsame]
            exact StrictMonoOn.mono hasc (Set.Ico_subset_Ico_right (by omega))
          · -- the part above the pivot is empty
            have hempty : ¬ p + 1 < p := fun h => by
              have := UInt32.lt_iff_toNat_lt.mp h
              omega
            obtain ⟨fuel, rfl⟩ : ∃ f, fuel = f + 1 := ⟨fuel - 1, by omega⟩
            rw [quick_sorter, if_neg hempty, ends_some]
            have hworst := worst_succ (a := p.toNat - low.toNat) (by omega)
            rw [show p.toNat - low.toNat + 1 = p.toNat + 1 - low.toNat by omega,
              show p.toNat - low.toNat + 2 = p.toNat + 2 - low.toNat by omega] at hworst
            rw [show (p - 1).toNat + 1 - low.toNat = p.toNat - low.toNat by omega] at hspent₂
            rw [hworst]
            exact hspent.trans hspent₂
      · next hge =>
          have hge' := mt UInt32.lt_iff_toNat_lt.mpr hge
          have hnone : worst (high.toNat + 1 - low.toNat) = 0 := by
            rw [worst, show high.toNat + 1 - low.toNat - 1 = 0 by omega, Nat.zero_mul]
          rw [ends_some, hnone]
          exact Spent.refl s

/-- Quick sort never makes more than `(n - 1) (n + 4) / 2` comparisons, and it makes exactly
as many on the arrays that are sorted already. -/
theorem quick_sort_compares (s : State) (n : UInt32) (fuel : ℕ) (hn : n.toNat < 2 ^ 31)
    (hsize : s.size = n.toNat) (hfuel : n.toNat + 1 < fuel) :
    Yields (quick_sort fuel s n) fun s' =>
      (∃ c ≤ worst n.toNat, Spent c s s') ∧
      (StrictMonoOn s.A (Set.Iio n.toNat) → Spent (worst n.toNat) s s') := by
  have hfuel' : n.toNat + 2 - (1 : UInt32).toNat < fuel := by simpa using hfuel
  obtain ⟨s', hs', -⟩ := quick_sorter_yields (s := s) le_rfl hsize.ge (by omega) hfuel'
  refine ⟨s', hs', ?_, fun hasc => ?_⟩
  · exact quick_sorter_spent le_rfl hsize.ge (by omega) hfuel' s' hs'
  · exact quick_sorter_ascending le_rfl hsize.ge (by omega) hfuel'
      (hasc.mono fun i hi => hi.2) s' hs'

theorem quick_sort_compares_three :
    Yields (quick_sort 10 (ofList [1, 2, 3]) 3) fun s' =>
      (∃ c ≤ worst 3, Spent c (ofList [1, 2, 3]) s') ∧
      (StrictMonoOn (ofList [1, 2, 3]).A (Set.Iio 3) → Spent (worst 3) (ofList [1, 2, 3]) s') :=
  quick_sort_compares (ofList [1, 2, 3]) 3 10 (by decide) rfl (by decide)

end Quick

/-! ## Heap sort -/

namespace Heap

variable {s s' : State} {first last n : UInt32} {fuel : ℕ}

/-- At most `log₂ last` comparisons, one for each level that has a right child. -/
def Logarithmic (last : ℕ) (s s' : State) : Prop := ∃ c ≤ Nat.log 2 last, Spent c s s'

/-- The elements are compared only when there is a right child. -/
theorem max_child_spent (hle : first ≤ last) (hlast : last.toNat < 2 ^ 31) :
    Ends (max_child s first last) fun (s', great) =>
      2 * first.toNat + 1 ≤ last.toNat ∧ Spent 1 s s' ∧
          2 * first.toNat ≤ great.toNat ∧ great.toNat ≤ last.toNat ∨
        last.toNat ≤ 2 * first.toNat ∧ Spent 0 s s' ∧ great.toNat = 2 * first.toNat := by
  have hle' := UInt32.le_iff_toNat_le.mp hle
  have hleft : (2 * first).toNat = 2 * first.toNat := by
    rw [UInt32.toNat_mul]
    exact Nat.mod_eq_of_lt (show 2 * first.toNat < 2 ^ 32 by omega)
  have hright : (2 * first + 1).toNat = 2 * first.toNat + 1 := by
    rw [toNat_succ (by omega), hleft]
  rw [max_child]
  dsimp only
  split
  · next h =>
      have h' := UInt32.le_iff_toNat_le.mp h
      rw [hright] at h'
      refine load_ends.bind fun a _ => load_ends.bind fun b _ => ?_
      rw [Option.pure_def, ends_some]
      refine Or.inl ⟨h', cmp_spent (x := a) (y := b), ?_⟩
      dsimp only
      split
      · rw [hright]
        omega
      · rw [hleft]
        omega
  · next h =>
      have h' := mt UInt32.le_iff_toNat_le.mpr h
      rw [hright] at h'
      rw [ends_some]
      exact Or.inr ⟨by omega, Spent.refl s, hleft⟩

/-- The node `mother` is deep enough to pay for the comparisons so far. -/
structure Sinking (last : UInt32) (s₀ : State) (v : Fix) : Prop where
  great : 2 * v.mother.toNat ≤ v.great.toNat
  great_le : v.mother.toNat ≤ last.toNat / 2 → v.great.toNat ≤ last.toNat
  paid : ∃ c, Spent c s₀ v.s ∧ 2 ^ c ≤ 2 * v.mother.toNat ∧ (c = 0 ∨ 2 ^ c ≤ last.toNat)

/-- The next child is looked up at a node that is deep enough for one comparison more. -/
theorem sinking_child {s₀ : State} {c : ℕ} (found : UInt32) (hle : first ≤ last)
    (hlast : last.toNat < 2 ^ 31) (hspent : Spent c s₀ s) (hdeep : 2 ^ c ≤ first.toNat)
    (hc : c = 0 ∨ 2 ^ c ≤ last.toNat) :
    Ends (max_child s first last) fun (s', great) =>
      Sinking last s₀ ⟨s', found, first, great⟩ := by
  refine (max_child_spent hle hlast).mono ?_
  rintro ⟨s', great⟩ (⟨hright, hspent', hgreat, hgreat'⟩ | ⟨hnone, hspent', hgreat⟩)
  · have hpow : 2 ^ (c + 1) = 2 * 2 ^ c := Nat.pow_succ'
    exact ⟨hgreat, fun _ => hgreat', c + 1, hspent.trans hspent', by dsimp only; omega,
      Or.inr (by omega)⟩
  · exact ⟨hgreat.ge, fun h => by dsimp only at h ⊢; omega, c, hspent.trans hspent',
      by dsimp only; omega, hc⟩

theorem fixStep_sinks {s₀ : State} {v : Fix} (hlast : last.toNat < 2 ^ 31)
    (hmother : v.mother ≤ last / 2) (h : Sinking last s₀ v) :
    Ends (fixStep last v) (Sinking last s₀) := by
  obtain ⟨s, found, mother, great⟩ := v
  obtain ⟨c, hspent, hdeep, hc⟩ := h.paid
  have hgreat := h.great
  have hle := h.great_le (le_half_iff.mp hmother)
  dsimp only at hspent hdeep hgreat hle
  rw [fixStep]
  refine load_ends.bind fun a _ => load_ends.bind fun b _ => ?_
  split
  · refine swap_spent.bind fun s₁ hs₁ => ?_
    refine (sinking_child (s := (move s₁ great).1) found
      (UInt32.le_iff_toNat_le.mpr hle) hlast ((hspent.trans hs₁).trans move_spent)
      (by simpa using hdeep.trans hgreat) (by simpa using hc)).bind ?_
    rintro ⟨s₂, child⟩ h₂
    rw [Option.pure_def, ends_some]
    obtain ⟨c', hspent', hc'⟩ := h₂.paid
    exact ⟨h₂.great, h₂.great_le, c', hspent'.trans (move_spent (x := child)), hc'⟩
  · rw [Option.pure_def, ends_some]
    exact ⟨h.great, h.great_le, h.paid⟩

theorem fix_heap_spent (hfirst : 0 < first.toNat) (hle : first ≤ last)
    (hlast : last.toNat < 2 ^ 31) :
    Ends (fix_heap fuel s first last) (Logarithmic last.toNat s) := by
  rw [fix_heap]
  refine (sinking_child 0 hle hlast (Spent.refl s) hfirst (Or.inl rfl)).bind ?_
  rintro ⟨s₁, great⟩ h₁
  refine (whileLoop_ends (Sinking last s) (Q := Sinking last s) (fun v h => ?_) h₁).bind
    fun v h => ?_
  · rw [fixTest, ends_some]
    dsimp only
    split
    · next hmore => exact fixStep_sinks hlast (of_decide_eq_true hmore).1 h
    · exact h
  · rw [Option.pure_def, ends_some]
    obtain ⟨c, hspent, -, hc⟩ := h.paid
    refine ⟨c, ?_, hspent⟩
    rcases hc with rfl | hc
    · exact Nat.zero_le _
    · exact Nat.le_log_of_pow_le one_lt_two hc

theorem Logarithmic.after {k : ℕ} {s₀ : State} (h : ∃ c ≤ k * Nat.log 2 n.toNat, Spent c s₀ s)
    (hlast : last.toNat ≤ n.toNat) (hs' : Logarithmic last.toNat s s') :
    ∃ c ≤ (k + 1) * Nat.log 2 n.toNat, Spent c s₀ s' := by
  obtain ⟨c, hc, hspent⟩ := h
  obtain ⟨c', hc', hspent'⟩ := hs'
  refine ⟨c + c', ?_, hspent.trans hspent'⟩
  rw [Nat.add_mul, Nat.one_mul]
  exact Nat.add_le_add hc (hc'.trans (Nat.log_mono_right hlast))

theorem heap_sort_spent (hpos : 0 < n.toNat) (hn : n.toNat < 2 ^ 31) :
    Ends (heap_sort fuel s n) fun s' =>
      ∃ c ≤ ((n.toNat - 1) / 2 + (n.toNat - 1)) * Nat.log 2 n.toNat, Spent c s s' := by
  have hstart : ((n - 1) / 2).toNat = (n.toNat - 1) / 2 := by
    rw [UInt32.toNat_div, toNat_pred hpos]
    rfl
  let I (built : ℕ) (k : ℕ) (s' : State) : Prop :=
    ∃ c ≤ (built + k) * Nat.log 2 n.toNat, Spent c s s'
  suffices h : Ends (heap_sort fuel s n) (I ((n.toNat - 1) / 2) (n.toNat - 1)) from h
  have hbuild : Ends (build_heap fuel s 1 n) (I 0 ((n.toNat - 1) / 2)) := by
    suffices h : Ends (build_heap fuel s 1 n) (I 0 ((n - 1) / 2).toNat) from hstart ▸ h
    refine forDown_ends (I 0) ⟨0, Nat.zero_le _, Spent.refl s⟩ ?_
    · intro k father s' hlo hhi h
      have hhi' := UInt32.le_iff_toNat_le.mp hhi
      rw [hstart] at hhi'
      have hle : father ≤ n := UInt32.le_iff_toNat_le.mpr (by omega)
      refine (fix_heap_spent (UInt32.lt_iff_toNat_lt.mp hlo) hle hn).mono fun s'' hs'' => ?_
      exact Logarithmic.after h le_rfl hs''
  rw [heap_sort]
  refine hbuild.bind fun s₁ hs₁ => ?_
  refine forDown_ends (I ((n.toNat - 1) / 2)) (by simpa [I] using hs₁) ?_
  intro k leaf s₂ hlo hhi h
  have hlo' : 1 < leaf.toNat := UInt32.lt_iff_toNat_lt.mp hlo
  have hhi' := UInt32.le_iff_toNat_le.mp hhi
  have hleaf : (leaf - 1).toNat = leaf.toNat - 1 := toNat_pred (by omega)
  have hle : 1 ≤ leaf - 1 := UInt32.le_iff_toNat_le.mpr (by
    rw [hleaf]
    exact Nat.le_sub_one_of_lt hlo')
  rw [extract]
  refine swap_spent.bind fun s₃ hs₃ => ?_
  refine (fix_heap_spent one_pos hle (by omega)).mono fun s₄ hs₄ => ?_
  obtain ⟨c, hc, hspent⟩ := h
  exact Logarithmic.after ⟨c, hc, hspent.trans hs₃⟩ (by omega) hs₄

/-- Heap sort compares at most `log₂ n` times for each father and for each element that it
extracts. -/
theorem heap_sort_compares (s : State) (n : UInt32) (fuel : ℕ) (hpos : 1 ≤ n)
    (hn : n.toNat < 2 ^ 31) (hsize : n.toNat ≤ s.size) (hfuel : n.toNat < fuel) :
    Yields (heap_sort fuel s n) fun s' =>
      ∃ c ≤ ((n.toNat - 1) / 2 + (n.toNat - 1)) * Nat.log 2 n.toNat, Spent c s s' := by
  have hpos' : 0 < n.toNat := UInt32.le_iff_toNat_le.mp hpos
  obtain ⟨s', hs', -⟩ := heap_sort_yields hpos' hn hsize hfuel
  exact ⟨s', hs', heap_sort_spent hpos' hn s' hs'⟩

theorem heap_sort_compares_three :
    Yields (heap_sort 10 (ofList [3, 1, 2]) 3) fun s' =>
      ∃ c ≤ ((3 - 1) / 2 + (3 - 1)) * Nat.log 2 3, Spent c (ofList [3, 1, 2]) s' :=
  heap_sort_compares (ofList [3, 1, 2]) 3 10 (by decide) (by decide) (by decide) (by decide)

end Heap

end FavoriteAssignments.Sorting
