import FavoriteAssignments.Library.Strides
import FavoriteAssignments.Sorting.Memory

/-! # Shell sort

`shell.c` compares `arr[k]`, which its first shift overwrites, with the elements of the
chain. A pass therefore moves an element by one gap at most: it is a bubble pass. With the
3-smooth gaps of `gaps.h` this is enough for every array that the table covers. -/

namespace FavoriteAssignments.Sorting.Shell

open Loops Rearrangement Strides

/-! ## The program -/

/-- `gaps.h`. -/
def gaps : List UInt32 :=
  [995328, 944784, 884736, 839808, 786432, 746496, 708588, 663552, 629856, 589824, 559872,
   531441, 524288, 497664, 472392, 442368, 419904, 393216, 373248, 354294, 331776, 314928,
   294912, 279936, 262144, 248832, 236196, 221184, 209952, 196608, 186624, 177147, 165888,
   157464, 147456, 139968, 131072, 124416, 118098, 110592, 104976, 98304, 93312, 82944, 78732,
   73728, 69984, 65536, 62208, 59049, 55296, 52488, 49152, 46656, 41472, 39366, 36864, 34992,
   32768, 31104, 27648, 26244, 24576, 23328, 20736, 19683, 18432, 17496, 16384, 15552, 13824,
   13122, 12288, 11664, 10368, 9216, 8748, 8192, 7776, 6912, 6561, 6144, 5832, 5184, 4608, 4374,
   4096, 3888, 3456, 3072, 2916, 2592, 2304, 2187, 2048, 1944, 1728, 1536, 1458, 1296, 1152,
   1024, 972, 864, 768, 729, 648, 576, 512, 486, 432, 384, 324, 288, 256, 243, 216, 192, 162,
   144, 128, 108, 96, 81, 72, 64, 54, 48, 36, 32, 27, 24, 18, 16, 12, 9, 8, 6, 4, 3, 2, 1]

/-- The condition of the inner loop, on the variable `x`. The comparison counts only when
the first operand of `&&` holds. -/
def shiftTest (k j : UInt32) : State × UInt32 → Option ((State × UInt32) × Bool)
  | (s, x) =>
      if x ≥ j then do
        let a ← load s k
        let b ← load s (x - j)
        let (s, c) := cmp s a b
        return ((s, x), c < 0)
      else some ((s, x), false)

def shift (j : UInt32) : State × UInt32 → Option (State × UInt32)
  | (s, x) => do
      let a ← load s (x - j)
      let (s, a) := move s a
      let s ← store s x a
      return (s, x - j)

/-- The body of the loop over `k`. -/
def insert (fuel : ℕ) (j k : UInt32) (s : State) : Option State := do
  let a ← load s k
  let (s, temp) := move s a
  let (s, x) ← whileLoop (shiftTest k j) (shift j) fuel (s, k)
  let (s, temp) := move s temp
  store s x temp

/-- The body of the outer loop. -/
def pass (fuel : ℕ) (length : UInt32) (s : State) (j : UInt32) : Option State :=
  forUp j length (insert fuel j) s

def shell_sort (fuel : ℕ) (s : State) (length : UInt32) : Option State :=
  gaps.foldlM (pass fuel length) s

/-! ## One step of a pass -/

section Insert

variable {s : State} {j k : UInt32} {i : ℕ}

/-- The inner loop has not begun, or has moved one element by one gap. -/
inductive Shifted (s : State) (j k i : ℕ) : State → ℕ → Prop where
  | start {s'} : s'.size = s.size → s'.A = s.A → Shifted s j k i s' k
  | moved {s'} : s'.size = s.size → s.A k < s.A i →
      s'.A = Function.update s.A k (s.A i) → Shifted s j k i s' i

/-- Storing the saved element at `x` is all that is left of the insertion. -/
structure Placed (s : State) (k i : ℕ) (s' : State) (x : ℕ) : Prop where
  size : s'.size = s.size
  lt_size : x < s.size
  update_eq : Function.update s'.A x (s.A k) = compareExchange i k s.A

theorem update_moved (hne : i ≠ k.toNat) (h : s.A k.toNat < s.A i) :
    Function.update (Function.update s.A k.toNat (s.A i)) i (s.A k.toNat) =
      compareExchange i k.toNat s.A := by
  rw [compareExchange, min_eq_right h.le, max_eq_left h.le, Function.update_comm hne]

section Round

variable {s' : State} {x : UInt32} (hk : k.toNat = i + j.toNat) (hj : 0 < j.toNat)
  (hsize : k.toNat < s.size)
include hk hj hsize

/-- The first comparison is the one of an insertion. -/
theorem start_round (hx : x = k) (hsize' : s'.size = s.size) (hA : s'.A = s.A) :
    Yields (shiftTest k j (s', x)) fun r =>
      if r.2 then Yields (shift j r.1) fun (s'', x') =>
        Shifted s j.toNat k.toNat i s'' x'.toNat ∧ x'.toNat < x.toNat
      else Placed s k.toNat i r.1.1 r.1.2.toNat := by
  subst hx
  have hle : j ≤ x := UInt32.le_iff_toNat_le.mpr (by omega)
  have hsub : (x - j).toNat = i := by
    rw [UInt32.toNat_sub_of_le x j hle, hk, Nat.add_sub_cancel]
  rw [shiftTest, if_pos hle, load_eq (by omega), load_eq (by omega), hsub, hA]
  simp only [Option.bind_eq_bind, Option.bind_some, Option.pure_def, yields_some, cmp_neg_iff,
    decide_eq_true_eq]
  split
  · next hlt =>
      rw [shift, load_eq (by rw [cmp_size]; omega), cmp_A, hsub, hA]
      simp only [Option.bind_eq_bind, Option.bind_some]
      apply (store_yields (by rw [move_size, cmp_size]; omega) _).bind
      intro s'' hs''
      rw [move_size, cmp_size, move_A, cmp_A, hA] at hs''
      rw [Option.pure_def, yields_some]
      dsimp only
      rw [hsub]
      exact ⟨Shifted.moved (hs''.1.trans hsize') hlt hs''.2, by omega⟩
  · next hge =>
      refine ⟨hsize', hsize, ?_⟩
      rw [compareExchange_of_le (not_lt.mp hge), cmp_A, hA, Function.update_eq_self]

/-- After a shift, `arr[k]` holds the element that the next one is compared with, so that no
second shift follows. -/
theorem moved_round (hprev : ∀ l, i = l + j.toNat → s.A l ≤ s.A i) (hx : x.toNat = i)
    (hsize' : s'.size = s.size) (hlt : s.A k.toNat < s.A i)
    (hA : s'.A = Function.update s.A k.toNat (s.A i)) :
    Yields (shiftTest k j (s', x)) fun r =>
      r.2 = false ∧ Placed s k.toNat i r.1.1 r.1.2.toNat := by
  have hne : i ≠ k.toNat := by omega
  rw [shiftTest]
  split
  · next hle =>
      have hle' := UInt32.le_iff_toNat_le.mp hle
      have hsub : (x - j).toNat = i - j.toNat := by
        rw [UInt32.toNat_sub_of_le x j hle, hx]
      have hstay : ¬ s.A i < s.A (i - j.toNat) := not_lt.mpr (hprev _ (by omega))
      rw [load_eq (by omega), load_eq (by omega), hsub, hA, Function.update_self,
        Function.update_of_ne (by omega)]
      simp only [Option.bind_eq_bind, Option.bind_some, Option.pure_def, yields_some,
        cmp_neg_iff, decide_eq_false hstay]
      refine ⟨trivial, hsize', by omega, ?_⟩
      rw [cmp_A, hA, hx]
      exact update_moved hne hlt
  · rw [yields_some]
    refine ⟨rfl, hsize', (show x.toNat < s.size by omega), ?_⟩
    rw [hA, hx]
    exact update_moved hne hlt

end Round

/-- Where the chain before `k` ends in its greatest element, the body of the loop over `k`
exchanges it with `arr[k]` if need be. -/
theorem insert_yields {fuel : ℕ} (hk : k.toNat = i + j.toNat) (hj : 0 < j.toNat)
    (hsize : k.toNat < s.size) (hprev : ∀ l, i = l + j.toNat → s.A l ≤ s.A i)
    (hfuel : k.toNat < fuel) : Yields (insert fuel j k s) fun s' =>
      s'.size = s.size ∧ s'.A = compareExchange i k.toNat s.A := by
  have hloop : Yields (whileLoop (shiftTest k j) (shift j) fuel ((move s (s.A k.toNat)).1, k))
      fun (s', x) => Placed s k.toNat i s' x.toNat := by
    apply whileLoop_rule (fun (s', x) => Shifted s j.toNat k.toNat i s' x.toNat)
      (fun (_, x) => x.toNat) _ _ hfuel
    · rintro ⟨s', x⟩ h
      dsimp only at h
      generalize hx : x.toNat = l at h
      cases h with
      | start hsize' hA =>
          apply start_round hk hj hsize (UInt32.toNat_inj.mp hx) hsize' hA
      | moved hsize' hlt hA =>
          apply (moved_round hk hj hsize hprev hx hsize' hlt hA).mono
          intro r hr
          rw [hr.1]
          exact hr.2
    · exact Shifted.start rfl rfl
  rw [insert, load_eq hsize]
  apply hloop.bind
  rintro ⟨s', x⟩ h
  have hlt : x.toNat < s'.size := h.size ▸ h.lt_size
  have hstore := store_yields (s := (move s' (s.A k.toNat)).1) (i := x) hlt (s.A k.toNat)
  apply hstore.mono
  intro s'' hs''
  refine ⟨hs''.1.trans h.size, ?_⟩
  rw [hs''.2]
  exact h.update_eq

end Insert

/-! ## A pass -/

section Pass

variable {s : State} {j length : UInt32} {fuel : ℕ}

theorem pass_yields (hj : 0 < j.toNat) (hle : j ≤ length) (hsize : length.toNat ≤ s.size)
    (hfuel : length.toNat < fuel) : Yields (pass fuel length s j) fun s' =>
      Permutes length.toNat s s' ∧ s'.A = bubble length.toNat j.toNat s.A := by
  apply forUp_rule (fun k s' => Permutes length.toNat s s' ∧ s'.A = bubble k j.toNat s.A) hle
  · exact ⟨Permutes.refl _ _, bubble_start.symm⟩
  · intro k s' hjk hk h
    obtain ⟨hperm, hA⟩ := h
    have hsize' := hperm.size
    have hk' := UInt32.lt_iff_toNat_lt.mp hk
    obtain ⟨i, hi⟩ := Nat.exists_eq_add_of_le' (UInt32.le_iff_toNat_le.mp hjk)
    apply (insert_yields hi hj (by omega) _ (by omega)).mono
    · intro s'' hs''
      refine ⟨hperm.trans ⟨hs''.1, ?_⟩, ?_⟩
      · rw [hs''.2]
        apply rearranges_compareExchange
        · exact Set.mem_Iio.mpr (by omega)
        · exact Set.mem_Iio.mpr hk'
      · rw [hs''.2, hA, hi, bubble_succ hj]
    · rintro l rfl
      have hlast : bubble k.toNat j.toNat s.A (l + j.toNat) =
          chainMax j.toNat s.A (l + j.toNat) := bubble_last (by omega) (by omega)
      rw [hA, hlast, chainMax_add hj]
      exact (bubble_le_chainMax (by omega)).trans (le_max_right _ _)

/-- What a pass with the gap `j` keeps and makes. -/
theorem pass_strides (hj : 0 < j.toNat) (hsize : length.toNat ≤ s.size)
    (hfuel : length.toNat < fuel) : Yields (pass fuel length s j) fun s' =>
      Permutes length.toNat s s' ∧
      (∀ g, StrideSorted length.toNat g s.A → StrideSorted length.toNat g s'.A) ∧
      (StrideSorted length.toNat (2 * j.toNat) s.A →
        StrideSorted length.toNat (3 * j.toNat) s.A →
          StrideSorted length.toNat j.toNat s'.A) := by
  by_cases hle : j ≤ length
  · apply (pass_yields hj hle hsize hfuel).mono
    intro s' h
    obtain ⟨hperm, hA⟩ := h
    rw [hA]
    exact ⟨hperm, fun g hg => hg.bubble hj, fun h₂ h₃ => strideSorted_bubble hj h₂ h₃⟩
  · have hlt := not_le.mp hle
    rw [pass, forUp_of_le s hlt.le, yields_some]
    exact ⟨Permutes.refl _ _, fun _ hg => hg,
      fun _ _ => strideSorted_of_le (UInt32.le_iff_toNat_le.mp hlt.le)⟩

end Pass

/-- A pass with the gap `j` makes every chain sorted. -/
def PassSorts (fuel : ℕ) (s : State) (length j : UInt32) : Prop :=
  ∃ s', pass fuel length s j = some s' ∧
    (contents length.toNat s'.A).Perm (contents length.toNat s.A) ∧
    ∀ i, i + j.toNat < length.toNat → s'.A i ≤ s'.A (i + j.toNat)

/-- Whatever the order before it, a pass sorts the chains exactly when no element has two
greater ones before it in its chain: when no insertion needs a second shift. -/
theorem pass_sorts_iff (s : State) (length j : UInt32) (fuel : ℕ) (hj : 0 < j.toNat)
    (hsize : s.size = length.toNat) (hfuel : length.toNat < fuel) :
    PassSorts fuel s length j ↔ OneGreater length.toNat j.toNat s.A := by
  by_cases hle : j ≤ length
  · rw [← strideSorted_bubble_iff hj]
    obtain ⟨s', hs', hperm, hA⟩ := pass_yields hj hle hsize.ge hfuel
    rw [PassSorts, hs', ← hA]
    constructor
    · intro h
      obtain ⟨s'', hs'', -, hsorted⟩ := h
      obtain rfl := Option.some.inj hs''
      exact hsorted
    · intro hsorted
      exact ⟨s', rfl, hperm.perm, hsorted⟩
  · have hlt := not_le.mp hle
    have hlt' := UInt32.lt_iff_toNat_lt.mp hlt
    apply iff_of_true
    · refine ⟨s, ?_, List.Perm.refl _, ?_⟩
      · rw [pass, forUp_of_le s hlt.le]
      · intro i hi
        omega
    · intro i a b ha hb hn
      have : j.toNat * 1 ≤ j.toNat * a := Nat.mul_le_mul_left _ ha
      omega

theorem pass_sorts_iff_three : PassSorts 5 (ofList [2, 1, 3]) 3 1 := by
  refine (pass_sorts_iff (ofList [2, 1, 3]) 3 1 5 (by decide) rfl (by decide)).mpr ?_
  intro i a b ha hb hn
  change i + 1 * a + 1 * b < 3 at hn
  obtain ⟨rfl, rfl, rfl⟩ : i = 0 ∧ a = 1 ∧ b = 1 := by omega
  exact .inl (by decide)

/-- The insertion of 1 stops after one shift: it is then 2 that the array has at its index, and
2 is not less than the 2 before it. -/
theorem second_shift_missing :
    1 ∈ gaps ∧ ¬ ∀ (s : State) (length j : UInt32) (fuel : ℕ), j ∈ gaps → 1 ≤ j →
      s.size = length.toNat → length.toNat < fuel → PassSorts fuel s length j := by
  have hgap : (1 : UInt32) ∈ gaps := by decide +kernel
  refine ⟨hgap, ?_⟩
  intro h
  obtain ⟨s', hs', -, hsorted⟩ := h (ofList [2, 3, 1]) 3 1 5 hgap (by decide) rfl (by decide)
  have hrun : (pass 5 3 (ofList [2, 3, 1]) 1).map (fun s => contents 3 s.A) = some [2, 1, 3] := by
    decide +kernel
  rw [hs'] at hrun
  have hcontents : contents 3 s'.A = [2, 1, 3] := Option.some.inj hrun
  have hfirst := hsorted 0 (by decide)
  simp only [contents, List.range_succ, List.range_zero] at hcontents
  simp at hcontents
  simp [hcontents] at hfirst

/-! ## The gap table -/

/-- Every gap of `todo` comes after its double and its triple, as far as these are below
`limit`. -/
def Covered (limit : ℕ) : List ℕ → List ℕ → Prop
  | _, [] => True
  | done, j :: todo => 0 < j ∧ (2 * j ∈ done ∨ limit ≤ 2 * j) ∧ (3 * j ∈ done ∨ limit ≤ 3 * j) ∧
      Covered limit (j :: done) todo

instance decidableCovered (limit : ℕ) :
    (todo done : List ℕ) → Decidable (Covered limit done todo)
  | [], _ => inferInstanceAs (Decidable True)
  | j :: todo, done =>
      have := decidableCovered limit todo (j :: done)
      inferInstanceAs (Decidable (_ ∧ _ ∧ _ ∧ _))

theorem gaps_covered : Covered 1048576 [] (gaps.map UInt32.toNat) := by
  decide +kernel

theorem one_mem_gaps : 1 ∈ gaps.map UInt32.toNat := by
  decide +kernel

/-- Passes with covered gaps sort the chains of all of them. -/
theorem passes_yield {length : UInt32} {fuel limit : ℕ} {todo : List UInt32} {done : List ℕ}
    {s : State} (hcovered : Covered limit done (todo.map UInt32.toNat))
    (hlimit : length.toNat ≤ limit) (hsize : length.toNat ≤ s.size) (hfuel : length.toNat < fuel)
    (hdone : ∀ g ∈ done, StrideSorted length.toNat g s.A) :
    Yields (todo.foldlM (pass fuel length) s) fun s' => Permutes length.toNat s s' ∧
      ∀ g, g ∈ done ∨ g ∈ todo.map UInt32.toNat → StrideSorted length.toNat g s'.A := by
  induction todo generalizing s done with
  | nil =>
      refine ⟨s, rfl, Permutes.refl _ _, ?_⟩
      intro g hg
      exact hdone g (hg.resolve_right List.not_mem_nil)
  | cons j todo ih =>
      obtain ⟨hj, h₂, h₃, hrest⟩ := hcovered
      have hsorted : ∀ g, g ∈ done ∨ limit ≤ g → StrideSorted length.toNat g s.A := by
        intro g hg
        rcases hg with hg | hg
        · exact hdone g hg
        · exact strideSorted_of_le (hlimit.trans hg)
      rw [List.foldlM_cons]
      apply (pass_strides hj hsize hfuel).bind
      rintro s₁ ⟨hperm, hkeep, hmake⟩
      have hdone₁ : ∀ g ∈ j.toNat :: done, StrideSorted length.toNat g s₁.A := by
        intro g hg
        rcases List.mem_cons.mp hg with rfl | hg
        · exact hmake (hsorted _ h₂) (hsorted _ h₃)
        · exact hkeep g (hdone g hg)
      apply (ih hrest (hperm.size ▸ hsize) hdone₁).mono
      rintro s₂ ⟨hperm₂, hall⟩
      refine ⟨hperm.trans hperm₂, ?_⟩
      intro g hg
      apply hall
      rw [List.map_cons, List.mem_cons] at hg
      rw [List.mem_cons]
      tauto

/-- `shell_sort` sorts every array that the gap table covers. -/
theorem shell_sort_sorts (s : State) (length : UInt32) (fuel : ℕ)
    (hlength : length.toNat ≤ 1048576) (hsize : s.size = length.toNat)
    (hfuel : length.toNat < fuel) :
    ∃ s', shell_sort fuel s length = some s' ∧
      (contents length.toNat s'.A).Perm (contents length.toNat s.A) ∧
      (contents length.toNat s'.A).Pairwise (· ≤ ·) := by
  obtain ⟨s', hs', hperm, hall⟩ := passes_yield gaps_covered hlength hsize.ge hfuel
    (fun g hg => absurd hg List.not_mem_nil)
  exact ⟨s', hs', hperm.perm, pairwise_contents_of_succ (hall 1 (.inr one_mem_gaps))⟩

theorem shell_sort_sorts_five :
    ∃ s', shell_sort 10 (ofList [4, 1, 3, 1, 2]) 5 = some s' ∧
      (contents 5 s'.A).Perm (contents 5 (ofList [4, 1, 3, 1, 2]).A) ∧
      (contents 5 s'.A).Pairwise (· ≤ ·) :=
  shell_sort_sorts (ofList [4, 1, 3, 1, 2]) 5 10 (by decide) rfl (by decide)

end FavoriteAssignments.Sorting.Shell
