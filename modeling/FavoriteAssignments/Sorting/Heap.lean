import FavoriteAssignments.Library.BinaryHeap
import FavoriteAssignments.Sorting.Memory

/-! # Heap sort

`build_heap` starts at the father `(last - 1) / 2`. For an even `last` the father `last / 2` of
the single last leaf is left out, so that this leaf may stay above it. -/

namespace FavoriteAssignments.Sorting.Heap

open Loops Rearrangement BinaryHeap

/-! ## The program -/

/-- The elements are read only when there is a right child. -/
def max_child (s : State) (first last : UInt32) : Option (State × UInt32) :=
  let left := 2 * first
  let right := left + 1
  if right ≤ last then do
    let a ← load s (right - 1)
    let b ← load s (left - 1)
    let (s, c) := cmp s a b
    return (s, if c = 1 then right else left)
  else some (s, left)

/-- The memory and the variables of `fix_heap`. -/
structure Fix where
  s : State
  found : UInt32
  mother : UInt32
  great : UInt32

def fixTest (last : UInt32) (v : Fix) : Option (Fix × Bool) :=
  some (v, v.mother ≤ last / 2 ∧ v.found = 0)

def fixStep (last : UInt32) (v : Fix) : Option Fix := do
  let a ← load v.s (v.mother - 1)
  let b ← load v.s (v.great - 1)
  if a < b then
    let s ← swap v.s (v.mother - 1) (v.great - 1)
    let (s, mother) := move s v.great
    let (s, child) ← max_child s mother last
    let (s, great) := move s child
    return { v with s := s, mother := mother, great := great }
  else return { v with found := 1 }

def fix_heap (fuel : ℕ) (s : State) (first last : UInt32) : Option State := do
  let (s, great) ← max_child s first last
  let v ← whileLoop (fixTest last) (fixStep last) fuel ⟨s, 0, first, great⟩
  return v.s

def build_heap (fuel : ℕ) (s : State) (first last : UInt32) : Option State :=
  forDown ((last - 1) / 2) (first - 1) (fun father s => fix_heap fuel s father last) s

/-- The body of the loop over `leaf`. -/
def extract (fuel : ℕ) (first leaf : UInt32) (s : State) : Option State := do
  let s ← swap s (first - 1) (leaf - 1)
  fix_heap fuel s first (leaf - 1)

def heap_sort (fuel : ℕ) (s : State) (n : UInt32) : Option State := do
  let first := 1
  let last := n
  let s ← build_heap fuel s first last
  forDown last first (extract fuel first) s

/-! ## Sifting down -/

section Fix

variable {s : State} {first last : UInt32}

/-- With less than `2 ^ 31` nodes no child index wraps. -/
theorem max_child_yields (hfirst : 0 < first.toNat) (hle : first ≤ last)
    (hlast : last.toNat < 2 ^ 31) (hsize : last.toNat ≤ s.size) :
    Yields (max_child s first last) fun (s', great) =>
      s'.size = s.size ∧ s'.A = s.A ∧
        great.toNat = greaterChild last.toNat s.A first.toNat := by
  have hle' := UInt32.le_iff_toNat_le.mp hle
  have hleft : (2 * first).toNat = 2 * first.toNat := by
    rw [UInt32.toNat_mul]
    exact Nat.mod_eq_of_lt (show 2 * first.toNat < 2 ^ 32 by omega)
  have hright : (2 * first + 1).toNat = 2 * first.toNat + 1 := by
    rw [toNat_succ (by omega), hleft]
  have hcond : 2 * first + 1 ≤ last ↔ 2 * first.toNat + 1 ≤ last.toNat := by
    rw [UInt32.le_iff_toNat_le, hright]
  have hi : (2 * first + 1 - 1).toNat = 2 * first.toNat := by
    rw [toNat_pred (by omega), hright, Nat.add_sub_cancel]
  have hj : (2 * first - 1).toNat = 2 * first.toNat - 1 := by
    rw [toNat_pred (by omega), hleft]
  rw [max_child]
  dsimp only
  by_cases h : 2 * first.toNat + 1 ≤ last.toNat
  · rw [if_pos (hcond.mpr h), load_eq (by omega), load_eq (by omega), hi, hj]
    simp only [Option.bind_eq_bind, Option.bind_some, Option.pure_def, yields_some, cmp_size,
      cmp_A, cmp_eq_one_iff, true_and]
    rw [apply_ite UInt32.toNat, hleft, hright, greaterChild]
    simp only [h, true_and]
  · rw [if_neg (mt hcond.mp h), yields_some]
    refine ⟨rfl, rfl, ?_⟩
    rw [hleft, greaterChild, if_neg (fun hc => h hc.1)]

theorem le_half_iff {x : UInt32} : x ≤ last / 2 ↔ x.toNat ≤ last.toNat / 2 := by
  rw [UInt32.le_iff_toNat_le, UInt32.toNat_div]
  rfl

/-- What is left to do is to sift down from `mother`, unless `found` says that it is done. -/
structure Fixing (last : UInt32) (s₀ : State) (goal : ℕ → UInt32) (v : Fix) : Prop where
  size : v.s.size = s₀.size
  pos : 0 < v.mother.toNat
  le : v.mother ≤ last
  great : v.found = 0 → v.great.toNat = greaterChild last.toNat v.s.A v.mother.toNat
  rest : goal = if v.found = 0 then siftDown last.toNat v.s.A v.mother.toNat else v.s.A

/-- A bound for the rounds that are left. -/
def Fix.rounds (last : UInt32) (v : Fix) : ℕ :=
  if v.found = 0 then last.toNat + 1 - v.mother.toNat else 0

theorem Fixing.stop {s₀ : State} {goal : ℕ → UInt32} {v : Fix} (h : Fixing last s₀ goal v)
    (hdone : ¬(v.mother ≤ last / 2 ∧ v.found = 0)) : goal = v.s.A := by
  rw [h.rest]
  split
  · next hfound =>
      have hmother : ¬ v.mother ≤ last / 2 := fun hle => hdone ⟨hle, hfound⟩
      rw [le_half_iff] at hmother
      rw [siftDown, dif_neg]
      omega
  · rfl

variable {s₀ : State} {goal : ℕ → UInt32} {v : Fix}

/-- The range of the greater child of a node that has one. -/
theorem Fixing.great_bounds (h : Fixing last s₀ goal v) (hmother : v.mother.toNat ≤ last.toNat / 2)
    (hfound : v.found = 0) :
    v.mother.toNat < v.great.toNat ∧ v.great.toNat ≤ last.toNat := by
  rw [h.great hfound]
  exact ⟨lt_greaterChild _ _ h.pos, greaterChild_le (by omega)⟩

/-- After an exchange the sift goes on from the child. -/
theorem Fixing.descend {s' : State} {child : UInt32} (h : Fixing last s₀ goal v)
    (hmother : v.mother.toNat ≤ last.toNat / 2) (hfound : v.found = 0)
    (hless : v.s.A (v.mother.toNat - 1) < v.s.A (v.great.toNat - 1))
    (hsize : s'.size = v.s.size)
    (hA : s'.A = v.s.A ∘ Equiv.swap (v.mother.toNat - 1) (v.great.toNat - 1))
    (hchild : child.toNat = greaterChild last.toNat s'.A v.great.toNat) :
    Fixing last s₀ goal { v with s := s', mother := v.great, great := child } := by
  have hbounds := h.great_bounds hmother hfound
  have hpos := h.pos
  have hrest := h.rest
  rw [if_pos hfound, siftDown, ← h.great hfound, dif_pos ⟨⟨hpos, by omega⟩, hless⟩, ← hA] at hrest
  constructor
  · rw [hsize, h.size]
  · exact (show 0 < v.great.toNat by omega)
  · exact UInt32.le_iff_toNat_le.mpr hbounds.2
  · exact fun _ => hchild
  · rw [if_pos hfound]
    exact hrest

/-- Without an exchange the sift is over. -/
theorem Fixing.settle (h : Fixing last s₀ goal v) (hfound : v.found = 0)
    (hless : ¬ v.s.A (v.mother.toNat - 1) < v.s.A (v.great.toNat - 1)) :
    Fixing last s₀ goal { v with found := 1 } := by
  have hone : (1 : UInt32) ≠ 0 := by decide
  have hrest := h.rest
  rw [if_pos hfound, siftDown, ← h.great hfound, dif_neg fun hc => hless hc.2] at hrest
  refine ⟨h.size, h.pos, h.le, fun hf => absurd hf hone, ?_⟩
  rw [if_neg hone]
  exact hrest

theorem fixStep_yields (h : Fixing last s₀ goal v) (hlast : last.toNat < 2 ^ 31)
    (hsize : last.toNat ≤ s₀.size) (hmother : v.mother ≤ last / 2) (hfound : v.found = 0) :
    Yields (fixStep last v) fun v' => Fixing last s₀ goal v' ∧ v'.rounds last < v.rounds last := by
  rw [le_half_iff] at hmother
  have hpos := h.pos
  have hs := h.size
  have hbounds := h.great_bounds hmother hfound
  have hi : (v.mother - 1).toNat = v.mother.toNat - 1 := toNat_pred hpos
  have hj : (v.great - 1).toNat = v.great.toNat - 1 := toNat_pred (by omega)
  have hrounds : v.rounds last = last.toNat + 1 - v.mother.toNat := if_pos hfound
  rw [fixStep, load_eq (by omega), load_eq (by omega), hi, hj]
  simp only [Option.bind_eq_bind, Option.bind_some]
  split
  · next hless =>
      apply (swap_yields (by omega) (by omega)).bind
      intro s₁ hs₁
      rw [hi, hj] at hs₁
      have hle : v.great ≤ last := UInt32.le_iff_toNat_le.mpr hbounds.2
      have hchild := max_child_yields (s := (move s₁ v.great).1)
        (show 0 < v.great.toNat by omega) hle hlast (by rw [move_size]; omega)
      apply hchild.bind
      rintro ⟨s₂, child⟩ h₂
      dsimp only at h₂
      rw [move_size, move_A] at h₂
      obtain ⟨hsize₂, hA₂, hchild₂⟩ := h₂
      rw [Option.pure_def, yields_some]
      constructor
      · apply h.descend hmother hfound hless
        · rw [move_size, hsize₂, hs₁.1]
        · rw [move_A, hA₂, hs₁.2]
        · rw [move_A, hA₂]
          exact hchild₂
      · rw [hrounds, Fix.rounds, if_pos hfound]
        exact (show last.toNat + 1 - v.great.toNat < last.toNat + 1 - v.mother.toNat by omega)
  · next hless =>
      have hone : (1 : UInt32) ≠ 0 := by decide
      rw [Option.pure_def, yields_some]
      refine ⟨h.settle hfound hless, ?_⟩
      rw [hrounds, Fix.rounds, if_neg hone]
      omega

/-- `fix_heap` sifts the node `first` down. -/
theorem fix_heap_yields {fuel : ℕ} (hfirst : 0 < first.toNat) (hle : first ≤ last)
    (hlast : last.toNat < 2 ^ 31) (hsize : last.toNat ≤ s.size) (hfuel : last.toNat < fuel) :
    Yields (fix_heap fuel s first last) fun s' =>
      s'.size = s.size ∧ s'.A = siftDown last.toNat s.A first.toNat := by
  rw [fix_heap]
  apply (max_child_yields hfirst hle hlast hsize).bind
  rintro ⟨s₁, great⟩ ⟨hsize₁, hA₁, hgreat⟩
  have hloop : Yields (whileLoop (fixTest last) (fixStep last) fuel ⟨s₁, 0, first, great⟩)
      fun v => v.s.size = s.size ∧ v.s.A = siftDown last.toNat s.A first.toNat := by
    apply whileLoop_rule (Fixing last s (siftDown last.toNat s.A first.toNat)) (Fix.rounds last)
    · intro v h
      rw [fixTest, yields_some]
      dsimp only
      split
      · next hmore =>
          have hmore' := of_decide_eq_true hmore
          exact fixStep_yields h hlast hsize hmore'.1 hmore'.2
      · next hmore => exact ⟨h.size, (h.stop fun hc => hmore (decide_eq_true hc)).symm⟩
    · exact ⟨hsize₁, hfirst, hle, fun _ => by rw [hA₁]; exact hgreat, by rw [hA₁]; rfl⟩
    · rw [Fix.rounds, if_pos rfl]
      exact (show last.toNat + 1 - first.toNat < fuel by omega)
  apply hloop.bind
  intro v hv
  exact (yields_some v.s).mpr hv

end Fix

/-- From two heaps below `first`, `fix_heap` makes one. It permutes the places of this subtree,
and the first `last` places of the memory are all that it needs. -/
theorem fix_heap_restores (s : State) (first last : UInt32) (fuel : ℕ) (hfirst : 1 ≤ first)
    (hle : first ≤ last) (hlast : last.toNat < 2 ^ 31) (hsize : last.toNat ≤ s.size)
    (hheap : HeapOn last.toNat (subtree first.toNat \ {first.toNat}) s.A)
    (hfuel : last.toNat < fuel) :
    ∃ s', fix_heap fuel s first last = some s' ∧ s'.size = s.size ∧
      HeapOn last.toNat (subtree first.toNat) s'.A ∧
      (∀ i, ¬(i < last.toNat ∧ i + 1 ∈ subtree first.toNat) → s'.A i = s.A i) ∧
      (contents s.size s'.A).Perm (contents s.size s.A) ∧
      ∃ s'', fix_heap fuel { s with size := last.toNat } first last = some s'' ∧
        s''.A = s'.A := by
  have hpos : 0 < first.toNat := UInt32.le_iff_toNat_le.mp hfirst
  obtain ⟨s', hs', hsize', hA⟩ := fix_heap_yields hpos hle hlast hsize hfuel
  obtain ⟨s'', hs'', _, hA''⟩ := fix_heap_yields (s := { s with size := last.toNat })
    hpos hle hlast le_rfl hfuel
  have hrearr := rearranges_siftDown_subtree last.toNat s.A first.toNat
  rw [← hA] at hrearr
  refine ⟨s', hs', hsize', ?_, ?_, ?_, s'', hs'', hA''.trans hA.symm⟩
  · rw [hA]
    exact heapOn_siftDown hheap
  · intro i hi
    exact hrearr.eq_of_notMem hi
  · apply Rearranges.perm
    exact hrearr.mono fun i hi => Set.mem_Iio.mpr (hi.1.trans_le hsize)

theorem fix_heap_restores_five :
    ∃ s', fix_heap 10 (ofList [1, 5, 4, 2, 3]) 1 5 = some s' ∧ s'.size = 5 ∧
      HeapOn 5 (subtree 1) s'.A ∧
      (∀ i, ¬(i < 5 ∧ i + 1 ∈ subtree 1) → s'.A i = (ofList [1, 5, 4, 2, 3]).A i) ∧
      (contents 5 s'.A).Perm [1, 5, 4, 2, 3] ∧
      ∃ s'', fix_heap 10 { ofList [1, 5, 4, 2, 3] with size := 5 } 1 5 = some s'' ∧
        s''.A = s'.A := by
  apply fix_heap_restores (ofList [1, 5, 4, 2, 3]) 1 5 10 (by decide) (by decide) (by decide)
    le_rfl _ (by decide)
  intro c hc hlast hp
  have hlast' : c ≤ 5 := hlast
  have hne : c / 2 ≠ 1 := hp.2
  obtain rfl | rfl : c = 4 ∨ c = 5 := by omega
  · decide
  · decide

/-! ## The two phases -/

section Phases

variable {s : State} {n : UInt32} {fuel : ℕ}

theorem build_heap_yields (hpos : 0 < n.toNat) (hn : n.toNat < 2 ^ 31) (hsize : n.toNat ≤ s.size)
    (hfuel : n.toNat < fuel) : Yields (build_heap fuel s 1 n) fun s' =>
      s'.size = s.size ∧ s'.A = buildFrom n.toNat s.A ((n.toNat - 1) / 2) := by
  have hstart : ((n - 1) / 2).toNat = (n.toNat - 1) / 2 := by
    rw [UInt32.toNat_div, toNat_pred hpos]
    rfl
  have hloop : Yields (build_heap fuel s 1 n) fun s' => s'.size = s.size ∧
      buildFrom n.toNat s'.A (1 - 1 : UInt32).toNat =
        buildFrom n.toNat s.A ((n.toNat - 1) / 2) := by
    apply forDown_rule (fun (f : ℕ) (s' : State) => s'.size = s.size ∧
      buildFrom n.toNat s'.A f = buildFrom n.toNat s.A ((n.toNat - 1) / 2))
    · exact UInt32.le_iff_toNat_le.mpr (Nat.zero_le _)
    · rw [hstart]
      exact ⟨rfl, rfl⟩
    · intro father s' hlo hhi h
      have hlo' : 0 < father.toNat := UInt32.lt_iff_toNat_lt.mp hlo
      have hhi' := UInt32.le_iff_toNat_le.mp hhi
      rw [hstart] at hhi'
      have hle : father ≤ n := UInt32.le_iff_toNat_le.mpr (by omega)
      apply (fix_heap_yields hlo' hle hn (h.1 ▸ hsize) hfuel).mono
      intro s'' hs''
      refine ⟨hs''.1.trans h.1, ?_⟩
      rw [hs''.2, ← h.2]
      obtain ⟨f, hf⟩ := Nat.exists_eq_add_of_le' hlo'
      rw [hf]
      rfl
  exact hloop

/-- Both loops together, in terms of the heap operations. -/
theorem heap_sort_yields (hpos : 0 < n.toNat) (hn : n.toNat < 2 ^ 31) (hsize : n.toNat ≤ s.size)
    (hfuel : n.toNat < fuel) : Yields (heap_sort fuel s n) fun s' => s'.size = s.size ∧
      s'.A = extractFrom (buildFrom n.toNat s.A ((n.toNat - 1) / 2)) n.toNat := by
  rw [heap_sort]
  apply (build_heap_yields hpos hn hsize hfuel).bind
  intro s₁ hs₁
  rw [← hs₁.2, ← hs₁.1]
  have hloop : Yields (forDown n 1 (extract fuel 1) s₁) fun s' => s'.size = s₁.size ∧
      extractFrom s'.A (1 : UInt32).toNat = extractFrom s₁.A n.toNat := by
    apply forDown_rule (fun (l : ℕ) (s' : State) => s'.size = s₁.size ∧
      extractFrom s'.A l = extractFrom s₁.A n.toNat)
    · exact UInt32.le_iff_toNat_le.mpr hpos
    · exact ⟨rfl, rfl⟩
    · intro leaf s' hlo hhi h
      have hlo' : 1 < leaf.toNat := UInt32.lt_iff_toNat_lt.mp hlo
      have hhi' := UInt32.le_iff_toNat_le.mp hhi
      have hleaf : (leaf - 1).toNat = leaf.toNat - 1 := toNat_pred (by omega)
      have hone : (1 - 1 : UInt32).toNat = 0 := rfl
      have hs := h.1.trans hs₁.1
      rw [extract]
      apply (swap_yields (by omega) (by omega)).bind
      intro s₂ hs₂
      have hle : 1 ≤ leaf - 1 := UInt32.le_iff_toNat_le.mpr (by
        rw [hleaf]
        exact Nat.le_sub_one_of_lt hlo')
      apply (fix_heap_yields one_pos hle (by omega) (by rw [hs₂.1]; omega) (by omega)).mono
      intro s₃ hs₃
      refine ⟨hs₃.1.trans (hs₂.1.trans h.1), ?_⟩
      rw [hs₃.2, hs₂.2, ← h.2, hone, hleaf]
      obtain ⟨l, hl⟩ := Nat.exists_eq_add_of_le' hlo'
      rw [hl]
      rfl
  exact hloop

end Phases

/-! ## When the result is sorted -/

/-- The program ends, with the elements in non-decreasing order. -/
def Sorts (fuel : ℕ) (s : State) (n : UInt32) : Prop :=
  ∃ s', heap_sort fuel s n = some s' ∧
    (contents n.toNat s'.A).Perm (contents n.toNat s.A) ∧
    (contents n.toNat s'.A).Pairwise (· ≤ ·)

/-- There is no single last leaf, or it is not above its father, or it is not above all the
others and its father is still the same once they are a heap. -/
def LastLeafFits (n : ℕ) (A : ℕ → UInt32) : Prop :=
  n % 2 = 1 ∨ A (n - 1) ≤ A (n / 2 - 1) ∨
    (∃ i < n - 1, A (n - 1) ≤ A i) ∧
      buildFrom (n - 1) A ((n - 1) / 2) (n / 2 - 1) = A (n / 2 - 1)

section Sorted

variable {n : ℕ} {A : ℕ → UInt32}

/-- Where every pair is looked at, or the one left out is in order, the first phase makes a
heap. -/
theorem heapOn_built (h : n % 2 = 1 ∨ A (n - 1) ≤ A (n / 2 - 1)) :
    HeapOn n (Set.Ici 1) (buildFrom n A ((n - 1) / 2)) := by
  apply heapOn_buildFrom
  intro c hc hlast hp
  have hp' := Set.mem_Ici.mp hp
  have hcn : c = n ∧ n % 2 = 0 := by omega
  rw [hcn.1]
  exact h.resolve_left (by omega)

theorem sorted_of_heapOn {B : ℕ → UInt32} (hn : 0 < n) (h : HeapOn n (Set.Ici 1) B) :
    (contents n (extractFrom B n)).Pairwise (· ≤ ·) := by
  obtain ⟨l, rfl⟩ := Nat.exists_eq_add_of_le' hn
  apply extractFrom_sorted
  · exact fun c hc hlast => h c hc (by omega)
  · exact fun i hi => h.le_root i.succ_pos (by omega)

/-- The last leaf stays out of the heap of the others, and comes to its place at the end. -/
theorem sorted_of_le_others (hn : 0 < n) (heven : n % 2 = 0)
    (hle : ∃ i < n - 1, A (n - 1) ≤ A i)
    (hkeep : buildFrom (n - 1) A ((n - 1) / 2) (n / 2 - 1) = A (n / 2 - 1)) :
    (contents n (extractFrom (buildFrom n A ((n - 1) / 2)) n)).Pairwise (· ≤ ·) := by
  obtain ⟨m, rfl⟩ : ∃ m, n = 2 * m := ⟨n / 2, by omega⟩
  rw [Nat.mul_div_cancel_left m Nat.two_pos] at hkeep
  rw [buildFrom_one_more (by omega) hkeep]
  have hheap : HeapOn (2 * m - 1) (Set.Ici 1) (buildFrom (2 * m - 1) A ((2 * m - 1) / 2)) :=
    heapOn_buildFrom (heapOn_leaves (by omega))
  have hrearr := rearranges_buildFrom (2 * m - 1) A ((2 * m - 1) / 2)
  have hlast := hrearr.eq_of_notMem (i := 2 * m - 1) (fun h => lt_irrefl _ (Set.mem_Iio.mp h))
  have hothers : ∀ i ∈ Set.Iio (2 * m - 1), A i ≤ buildFrom (2 * m - 1) A ((2 * m - 1) / 2) 0 := by
    apply hrearr.symm.forall_mem (P := (· ≤ buildFrom (2 * m - 1) A ((2 * m - 1) / 2) 0))
    intro i hi
    have hi' := Set.mem_Iio.mp hi
    exact hheap.le_root i.succ_pos (by omega)
  generalize buildFrom (2 * m - 1) A ((2 * m - 1) / 2) = B at *
  obtain ⟨l, hl⟩ := Nat.exists_eq_add_of_le' hn
  rw [hl] at hheap hlast hothers hle ⊢
  apply extractFrom_sorted hheap
  intro i hi
  rcases Nat.lt_or_ge i l with hlt | hge
  · exact hheap.le_root i.succ_pos hlt
  · obtain ⟨j, hj, hAj⟩ := hle
    obtain rfl : i = l := by omega
    rw [Nat.add_sub_cancel] at hlast hAj
    rw [hlast]
    exact hAj.trans (hothers j hj)

/-- A single last leaf above all the others never gets to the root. -/
theorem le_others_of_sorted (hn : 0 < n) (heven : n % 2 = 0)
    (h : (contents n (extractFrom (buildFrom n A ((n - 1) / 2)) n)).Pairwise (· ≤ ·)) :
    ∃ i < n - 1, A (n - 1) ≤ A i := by
  by_contra hnone
  have hbelow : ∀ i < n - 1, A i < A (n - 1) := fun i hi =>
    not_le.mp fun hle => hnone ⟨i, hi, hle⟩
  have hroot : buildFrom n A ((n - 1) / 2) 0 < A (n - 1) :=
    buildFrom_root_lt fun c _ hc => hbelow (c - 1) (by omega)
  obtain ⟨j, hj, hAj⟩ := (rearranges_buildFrom n A ((n - 1) / 2)).symm.exists_eq
    (Set.mem_Iio.mpr (Nat.sub_one_lt_of_lt hn))
  have hj' := Set.mem_Iio.mp hj
  obtain ⟨l, rfl⟩ := Nat.exists_eq_add_of_le' hn
  exact (le_root_of_sorted h (Nat.lt_succ_iff.mp hj')).not_gt (hAj ▸ hroot)

end Sorted

/-- `heap_sort` sorts when the last leaf fits, and never when a single last leaf is above all
the other elements. Nothing is said from `2 ^ 31` elements on: there the children of node `2 ^ 31`
wrap around, and which runs sift into it is left open. An `int` holds no such length. -/
theorem heap_sort_sorts_when (s : State) (n : UInt32) (fuel : ℕ) (hn : 1 ≤ n)
    (hsize : s.size = n.toNat) (hfuel : n.toNat < fuel) :
    (n.toNat < 2 ^ 31 ∧ LastLeafFits n.toNat s.A → Sorts fuel s n) ∧
      (n.toNat < 2 ^ 31 ∧ Sorts fuel s n →
        n.toNat % 2 = 1 ∨ ∃ i < n.toNat - 1, s.A (n.toNat - 1) ≤ s.A i) := by
  have hpos : 0 < n.toNat := UInt32.le_iff_toNat_le.mp hn
  constructor
  · rintro ⟨hlt, hfits⟩
    obtain ⟨s', hs', _, hA⟩ := heap_sort_yields hpos hlt hsize.ge hfuel
    refine ⟨s', hs', ?_, ?_⟩
    · rw [hA]
      exact ((rearranges_buildFrom _ _ _).trans (rearranges_extractFrom _ _)).perm
    · rw [hA]
      rcases hfits with hodd | hle | ⟨hothers, hkeep⟩
      · exact sorted_of_heapOn hpos (heapOn_built (.inl hodd))
      · exact sorted_of_heapOn hpos (heapOn_built (.inr hle))
      · by_cases heven : n.toNat % 2 = 0
        · exact sorted_of_le_others hpos heven hothers hkeep
        · exact sorted_of_heapOn hpos (heapOn_built (.inl (by omega)))
  · rintro ⟨hlt, s', hs', _, hsorted⟩
    have hA := (heap_sort_yields hpos hlt hsize.ge hfuel).of_eq_some hs'
    rw [hA.2] at hsorted
    rcases Nat.mod_two_eq_zero_or_one n.toNat with heven | hodd
    · exact .inr (le_others_of_sorted hpos heven hsorted)
    · exact .inl hodd

theorem heap_sort_sorts_when_three :
    Sorts 10 (ofList [2, 1, 3]) 3 :=
  (heap_sort_sorts_when (ofList [2, 1, 3]) 3 10 (by decide) rfl (by decide)).1
    ⟨by decide, .inl rfl⟩

/-- The last of two elements is never compared. -/
theorem two_not_sorted :
    ¬ ∀ (s : State) (n : UInt32) (fuel : ℕ), 1 ≤ n → s.size = n.toNat → n.toNat < fuel →
      Sorts fuel s n := by
  intro h
  obtain ⟨s', hs', _, hsorted⟩ := h (ofList [1, 2]) 2 5 (by decide) rfl (by decide)
  have hrun : (heap_sort 5 (ofList [1, 2]) 2).map (fun s => contents 2 s.A) = some [2, 1] := by
    decide +kernel
  rw [hs'] at hrun
  rw [show contents (2 : UInt32).toNat s'.A = [2, 1] from Option.some.inj hrun] at hsorted
  revert hsorted
  decide

end FavoriteAssignments.Sorting.Heap
