import FavoriteAssignments.Library.OddEvenMerge
import FavoriteAssignments.Sorting.Memory
import Mathlib.Data.Nat.Bitwise

/-! # Batcher sort

`batcher.c` runs Batcher's merge-exchange network. The innermost loop is one row of
compare-exchanges, the loop over `d` one merge, and the loop over `p` halves the distance at
which the array is in order. -/

namespace FavoriteAssignments.Sorting.Batcher

open Loops Rearrangement Strides OddEvenMerge

/-! ## The program -/

def comparator (s : State) (x y : UInt32) : Option State := do
  let a ← load s x
  let b ← load s y
  let (s, c) := cmp s a b
  if c = 1 then swap s x y else return s

/-- An unsigned difference, with a wrap-around taken for a failure. -/
def difference (x y : UInt32) : Option UInt32 := if y ≤ x then some (x - y) else none

/-- The loop over `i`. -/
def row (s : State) (n p r d : UInt32) : Option State := do
  let bound ← difference n d
  forUp 0 bound (fun i s => if i &&& p = r then comparator s i (i + d) else some s) s

/-- The loop over `d`, on the variables `q`, `r` and `d`. -/
def merge (fuel : ℕ) (n p : UInt32) (s : State) (q r d : UInt32) : Option State := do
  let (s, _, _, _) ← whileLoop
    (fun (s, q, r, d) => some ((s, q, r, d), d > 0))
    (fun (s, q, r, d) => (row s n p r d).map fun s => (s, q >>> 1, p, q - p))
    fuel (s, q, r, d)
  return s

/-- The loop over `len`, which counts the bits of `n`. -/
def bitCount (fuel : ℕ) (n : UInt32) : Option UInt32 := do
  let (_, t) ← whileLoop
    (fun ((len, t) : UInt32 × UInt32) => some ((len, t), len != 0))
    (fun (len, t) => some (len >>> 1, t + 1))
    fuel (n, 0)
  return t

/-- `1 << k` on `int`, where reaching the sign bit is undefined. -/
def oneShift (k : UInt32) : Option UInt32 := if k < 31 then some (1 <<< k) else none

def batcher_sort (fuel : ℕ) (s : State) (n : UInt32) : Option State := do
  if n = 0 then return s
  let t ← bitCount fuel n
  let p ← oneShift (t - 1)
  let (s, _) ← whileLoop
    (fun ((s, p) : State × UInt32) => some ((s, p), p > 0))
    (fun (s, p) => do
      let q ← oneShift (t - 1)
      let s ← merge fuel n p s q 0 p
      return (s, p >>> 1))
    fuel (s, p)
  return s

/-! ## One row -/

theorem comparator_yields {s : State} {x y : UInt32} (hx : x.toNat < s.size)
    (hy : y.toNat < s.size) : Yields (comparator s x y) fun s' =>
      s'.size = s.size ∧ s'.A = compareExchange x.toNat y.toNat s.A := by
  rw [comparator, load_eq hx, load_eq hy]
  simp only [Option.bind_eq_bind, Option.bind_some, cmp_eq_one_iff]
  split
  · next h =>
      apply (swap_yields (s := (cmp s (s.A x.toNat) (s.A y.toNat)).1) hx hy).mono
      intro s' hs'
      rw [compareExchange_of_lt h]
      exact hs'
  · next h =>
      simp only [Option.pure_def, yields_some]
      exact ⟨rfl, (compareExchange_of_le (not_lt.mp h)).symm⟩

theorem difference_eq {x y : UInt32} (h : y ≤ x) : difference x y = some (x - y) := if_pos h

/-- The loop over `i` is a row of compare-exchanges at the distance `d`. -/
theorem row_yields {s : State} {n p r d : UInt32} (sel : ℕ → Prop) [DecidablePred sel]
    (hsize : n.toNat ≤ s.size) (hd : d ≤ n) (hiff : ∀ i, i &&& p = r ↔ sel i.toNat)
    (hsel : ∀ i, sel i → ¬ sel (i + d.toNat)) :
    Yields (row s n p r d) fun s' =>
      Permutes n.toNat s s' ∧ s'.A = exchange n.toNat d.toNat sel s.A := by
  have hbound : (n - d).toNat = n.toNat - d.toNat := UInt32.toNat_sub_of_le n d hd
  rw [row, difference_eq hd]
  have hloop : Yields
      (forUp 0 (n - d) (fun i s => if i &&& p = r then comparator s i (i + d) else some s) s)
      fun s' => Permutes n.toNat s s' ∧
        s'.A = exchange n.toNat d.toNat (fun i => sel i ∧ i < (n - d).toNat) s.A := by
    apply forUp_rule (fun k s' => Permutes n.toNat s s' ∧
      s'.A = exchange n.toNat d.toNat (fun i => sel i ∧ i < k) s.A) UInt32.zero_le
    · exact ⟨Permutes.refl _ _, exchange_zero.symm⟩
    · intro i s' _ hi h
      obtain ⟨hperm, hA⟩ := h
      have hsize' := hperm.size
      have hi' := UInt32.lt_iff_toNat_lt.mp hi
      have hn := n.toNat_lt
      have hadd : (i + d).toNat = i.toNat + d.toNat := by
        rw [UInt32.toNat_add]
        exact Nat.mod_eq_of_lt (by omega)
      by_cases hs : sel i.toNat
      · rw [if_pos ((hiff i).mpr hs)]
        apply (comparator_yields (by omega) (by omega)).mono
        intro s'' hs''
        rw [hadd] at hs''
        refine ⟨hperm.trans ⟨hs''.1, ?_⟩, ?_⟩
        · rw [hs''.2]
          apply rearranges_compareExchange
          · exact Set.mem_Iio.mpr (by omega)
          · exact Set.mem_Iio.mpr (by omega)
        · rw [hs''.2, hA, exchange_succ hsel hs (by omega)]
      · rw [if_neg (mt (hiff i).mp hs), yields_some, exchange_succ_of_not hs]
        exact ⟨hperm, hA⟩
  apply hloop.mono
  intro s' h
  rw [hbound, exchange_full hsel] at h
  exact h

/-! ## One merge -/

section Merge

variable {b : ℕ} {p : UInt32}

theorem toNat_and_two_pow (hp : p.toNat = 2 ^ b) (i : UInt32) :
    (i &&& p).toNat = if OddBlock p.toNat i.toNat then p.toNat else 0 := by
  have hbit : i.toNat.testBit b = decide (OddBlock p.toNat i.toNat) := by
    rw [Nat.testBit_eq_decide_div_mod_eq, hp]
    rfl
  rw [UInt32.toNat_and, hp, Nat.and_two_pow, hbit, hp]
  by_cases h : OddBlock (2 ^ b) i.toNat <;> simp [h]

theorem and_eq_zero_iff (hp : p.toNat = 2 ^ b) (i : UInt32) :
    i &&& p = 0 ↔ ¬ OddBlock p.toNat i.toNat := by
  have hne : p.toNat ≠ 0 := hp ▸ (Nat.two_pow_pos b).ne'
  rw [← UInt32.toNat_inj, toNat_and_two_pow hp, UInt32.toNat_zero]
  split
  · next h => exact iff_of_false hne (not_not.mpr h)
  · next h => exact iff_of_true rfl h

theorem and_eq_self_iff (hp : p.toNat = 2 ^ b) (i : UInt32) :
    i &&& p = p ↔ OddBlock p.toNat i.toNat := by
  have hne : p.toNat ≠ 0 := hp ▸ (Nat.two_pow_pos b).ne'
  rw [← UInt32.toNat_inj, toNat_and_two_pow hp]
  split
  · next h => exact iff_of_true rfl h
  · next h => exact iff_of_false hne.symm h

/-- Where the loop over `d` is: before the first row, or before a later row with a smaller
distance. -/
inductive Stage (n a₀ p : ℕ) (A : ℕ → UInt32) : ℕ → ℕ → ℕ → Prop where
  | first : StrideSorted n (2 * p) A → Stage n a₀ p A (2 ^ a₀) 0 p
  | later {a d : ℕ} : a ≤ a₀ → d + p = 2 ^ a → Merging n p (2 * d + p) A →
      Stage n a₀ p A (2 ^ a / 2) p d

theorem toNat_half (x : UInt32) : (x >>> 1).toNat = x.toNat / 2 := by
  rw [UInt32.toNat_shiftRight]
  exact Nat.shiftRight_eq_div_pow _ _

section Step

variable {a₀ : ℕ} {s : State} {n q r d : UInt32} (hp : p.toNat = 2 ^ b) (hba : b ≤ a₀)
  (hsize : n.toNat ≤ s.size) (hlow : 2 ^ a₀ ≤ n.toNat)
include hp hba hsize hlow

/-- The first row of a merge, on neighbouring blocks. -/
theorem first_row_yields (hhigh : n.toNat ≤ 2 * 2 ^ a₀) (hq : q.toNat = 2 ^ a₀)
    (h : StrideSorted n.toNat (2 * p.toNat) s.A) :
    Yields (row s n p 0 p) fun s' => Permutes n.toNat s s' ∧
      Stage n.toNat a₀ p.toNat s'.A (q >>> 1).toNat p.toNat (q - p).toNat := by
  have hpos := Nat.two_pow_pos b
  have hpow := Nat.pow_le_pow_right (show 0 < 2 by decide) hba
  have hdiff : (q - p).toNat = q.toNat - p.toNat :=
    UInt32.toNat_sub_of_le q p (UInt32.le_iff_toNat_le.mpr (by omega))
  apply (row_yields (fun i => ¬ OddBlock p.toNat i) hsize (UInt32.le_iff_toNat_le.mpr (by omega))
    (and_eq_zero_iff hp) (fun i hi => not_not.mpr ((oddBlock_add_iff (by omega) i).mpr hi))).mono
  intro s' hs'
  obtain ⟨hperm, hA⟩ := hs'
  refine ⟨hperm, ?_⟩
  rw [toNat_half, hq, hA]
  apply Stage.later le_rfl
  · omega
  · exact merging_first (by omega) (by omega) h

omit hba in
/-- A later row of a merge, on the odd blocks. -/
theorem later_row_yields {a : ℕ} (ha : a + 1 ≤ a₀) (hab : b ≤ a) (hq : q.toNat = 2 ^ a)
    (hd : d.toNat + p.toNat = 2 ^ (a + 1))
    (h : Merging n.toNat p.toNat (2 * d.toNat + p.toNat) s.A) :
    Yields (row s n p p d) fun s' => Permutes n.toNat s s' ∧
      Stage n.toNat a₀ p.toNat s'.A (q >>> 1).toNat p.toNat (q - p).toNat := by
  have hpos := Nat.two_pow_pos b
  have hpow := Nat.pow_le_pow_right (show 0 < 2 by decide) hab
  have hpow' := Nat.pow_le_pow_right (show 0 < 2 by decide) ha
  have hdiff : (q - p).toNat = q.toNat - p.toNat :=
    UInt32.toNat_sub_of_le q p (UInt32.le_iff_toNat_le.mpr (by omega))
  have hdouble : d.toNat + p.toNat = 2 * p.toNat * 2 ^ (a - b) := by
    rw [hd, hp, Nat.mul_assoc, ← Nat.pow_add, Nat.add_sub_cancel' hab, Nat.pow_succ, Nat.mul_comm]
  have hother := oddBlock_add_distance_iff (by omega : 0 < p.toNat) hdouble
  apply (row_yields (OddBlock p.toNat) hsize (UInt32.le_iff_toNat_le.mpr (by omega))
    (and_eq_self_iff hp) (fun i hi => fun h => (hother i).mp h hi)).mono
  intro s' hs'
  obtain ⟨hperm, hA⟩ := hs'
  refine ⟨hperm, ?_⟩
  rw [toNat_half, hq, hA]
  apply Stage.later (Nat.le_of_succ_le ha)
  · omega
  · rw [Nat.pow_succ] at hd
    rw [show 2 * (q - p).toNat + p.toNat = d.toNat by omega]
    exact h.next (by omega) hdouble

theorem stage_row_yields (hhigh : n.toNat ≤ 2 * 2 ^ a₀) (hd : 0 < d)
    (h : Stage n.toNat a₀ p.toNat s.A q.toNat r.toNat d.toNat) :
    Yields (row s n p r d) fun s' => (Permutes n.toNat s s' ∧
      Stage n.toNat a₀ p.toNat s'.A (q >>> 1).toNat p.toNat (q - p).toNat) ∧
      (q - p).toNat < if r.toNat = 0 then n.toNat + 1 else d.toNat := by
  have hpos := Nat.two_pow_pos b
  have hpow := Nat.pow_le_pow_right (show 0 < 2 by decide) hba
  have hd' := UInt32.lt_iff_toNat_lt.mp hd
  generalize hqn : q.toNat = qn at h
  generalize hrn : r.toNat = rn at h
  generalize hdn : d.toNat = dn at h
  cases h with
  | first h =>
      obtain rfl : d = p := UInt32.toNat_inj.mp hdn
      obtain rfl : r = 0 := UInt32.toNat_inj.mp hrn
      apply (first_row_yields hp hba hsize hlow hhigh hqn h).mono
      intro s' hs'
      refine ⟨hs', ?_⟩
      have hdiff : (q - d).toNat = q.toNat - d.toNat :=
        UInt32.toNat_sub_of_le q d (UInt32.le_iff_toNat_le.mpr (by omega))
      rw [if_pos rfl]
      omega
  | later ha hdp h =>
      obtain rfl : r = p := UInt32.toNat_inj.mp hrn
      rename_i a
      subst hdn
      -- the distance is not zero, so the loop is not at its end
      have hab : b < a := by
        by_contra hle
        have := Nat.pow_le_pow_right (show 0 < 2 by decide) (not_lt.mp hle)
        rw [UInt32.toNat_zero] at hd'
        omega
      obtain ⟨a, rfl⟩ := Nat.exists_eq_succ_of_ne_zero (Nat.ne_zero_of_lt hab)
      rw [Nat.succ_eq_add_one, Nat.pow_succ, Nat.mul_div_cancel _ (by decide)] at hqn
      apply (later_row_yields hp hsize hlow ha (Nat.lt_succ_iff.mp hab) hqn hdp h).mono
      intro s' hs'
      refine ⟨hs', ?_⟩
      have hpow := Nat.pow_le_pow_right (show 0 < 2 by decide) (Nat.lt_succ_iff.mp hab)
      have hpos := Nat.two_pow_pos a
      have hdiff : (q - r).toNat = q.toNat - r.toNat :=
        UInt32.toNat_sub_of_le q r (UInt32.le_iff_toNat_le.mpr (by omega))
      rw [Nat.succ_eq_add_one, Nat.pow_succ] at hdp
      rw [if_neg (by omega)]
      omega

omit hp hba hsize hlow in
/-- The loop over `d` ends when neighbouring blocks are merged. -/
theorem Stage.strideSorted {A : ℕ → UInt32} {n q r : ℕ} (hp : 0 < p.toNat)
    (h : Stage n a₀ p.toNat A q r 0) : StrideSorted n p.toNat A := by
  generalize hd : 0 = d at h
  cases h with
  | first _ => omega
  | later _ _ h =>
      subst hd
      rw [Nat.mul_zero, Nat.zero_add] at h
      exact h.strideSorted

/-- From order at the distance `2 * p`, a merge makes order at the distance `p`. -/
theorem merge_yields {fuel : ℕ} (hhigh : n.toNat ≤ 2 * 2 ^ a₀) (hq : q.toNat = 2 ^ a₀)
    (hfuel : n.toNat + 1 < fuel) (h : StrideSorted n.toNat (2 * p.toNat) s.A) :
    Yields (merge fuel n p s q 0 p) fun s' =>
      Permutes n.toNat s s' ∧ StrideSorted n.toNat p.toNat s'.A := by
  have hpos := Nat.two_pow_pos b
  have hloop : Yields (whileLoop
      (fun (s, q, r, d) => some ((s, q, r, d), d > 0))
      (fun (s, q, r, d) => (row s n p r d).map fun s => (s, q >>> 1, p, q - p))
      fuel (s, q, 0, p)) fun (s', _, _, _) =>
        Permutes n.toNat s s' ∧ StrideSorted n.toNat p.toNat s'.A := by
    apply whileLoop_rule
      (fun (s', q, r, d) => Permutes n.toNat s s' ∧
        Stage n.toNat a₀ p.toNat s'.A q.toNat r.toNat d.toNat)
      (fun (_, _, r, d) => if r.toNat = 0 then n.toNat + 1 else d.toNat) _ _ hfuel
    · rintro ⟨s', q', r', d'⟩ ⟨hperm, hstage⟩
      simp only [yields_some, gt_iff_lt, decide_eq_true_eq]
      split
      · next hd =>
          apply (stage_row_yields hp hba (hperm.size ▸ hsize) hlow hhigh hd hstage).map
          intro s'' hs''
          refine ⟨⟨hperm.trans hs''.1.1, hs''.1.2⟩, ?_⟩
          dsimp only
          rw [if_neg (by omega)]
          exact hs''.2
      · next hd =>
          have hzero : d'.toNat = 0 := by
            have := mt UInt32.lt_iff_toNat_lt.mpr hd
            rw [UInt32.toNat_zero] at this
            omega
          rw [hzero] at hstage
          exact ⟨hperm, hstage.strideSorted (by omega)⟩
    · refine ⟨Permutes.refl _ _, ?_⟩
      rw [hq]
      exact Stage.first h
  rw [merge]
  apply hloop.bind
  rintro ⟨s', q', r', d'⟩ h'
  exact (yields_some s').mpr h'

end Step

end Merge

/-! ## The whole sort -/

/-- The loop over `len` counts the bits of `n`. -/
theorem bitCount_yields {fuel : ℕ} {n : UInt32} (hn : 0 < n.toNat) (hfuel : n.toNat < fuel) :
    Yields (bitCount fuel n) fun t =>
      ∃ a, t.toNat = a + 1 ∧ 2 ^ a ≤ n.toNat ∧ n.toNat < 2 * 2 ^ a := by
  have hloop : Yields (whileLoop
      (fun ((len, t) : UInt32 × UInt32) => some ((len, t), len != 0))
      (fun (len, t) => some (len >>> 1, t + 1)) fuel (n, 0)) fun (_, t) =>
        ∃ a, t.toNat = a + 1 ∧ 2 ^ a ≤ n.toNat ∧ n.toNat < 2 * 2 ^ a := by
    apply whileLoop_rule
      (fun (len, t) => len.toNat = n.toNat / 2 ^ t.toNat ∧
        (t.toNat = 0 ∨ ∃ a, t.toNat = a + 1 ∧ 2 ^ a ≤ n.toNat))
      (fun (len, _) => len.toNat) _ _ hfuel
    · rintro ⟨len, t⟩ ⟨hlen, ht⟩
      simp only [yields_some, bne_iff_ne, ne_eq, ← UInt32.toNat_inj, UInt32.toNat_zero]
      split
      · next hne =>
          have hle : 2 ^ t.toNat ≤ n.toNat := by
            by_contra hlt
            rw [Nat.div_eq_of_lt (not_le.mp hlt)] at hlen
            exact hne hlen
          have ht32 : t.toNat < 32 := by
            apply (Nat.pow_lt_pow_iff_right (show 1 < 2 by decide)).mp
            exact lt_of_le_of_lt hle n.toNat_lt
          have hsucc : (t + 1).toNat = t.toNat + 1 := toNat_succ (by omega)
          rw [toNat_half, hsucc]
          refine ⟨⟨?_, .inr ⟨t.toNat, rfl, hle⟩⟩, by omega⟩
          rw [hlen, Nat.div_div_eq_div_mul, Nat.pow_succ]
      · next hzero =>
          rw [not_not] at hzero
          rw [hlen, Nat.div_eq_zero_iff] at hzero
          have hlt := hzero.resolve_left (Nat.two_pow_pos _).ne'
          rcases ht with ht | ⟨a, ht, hle⟩
          · rw [ht, Nat.pow_zero] at hlt
            omega
          · rw [ht, Nat.pow_succ, Nat.mul_comm] at hlt
            exact ⟨a, ht, hle, hlt⟩
    · simp
  rw [bitCount]
  apply hloop.bind
  rintro ⟨_, t⟩ h
  exact (yields_some t).mpr h

theorem oneShift_yields {t : UInt32} {a : ℕ} (ht : t.toNat = a + 1) (ha : a < 31) :
    Yields (oneShift (t - 1)) fun q => q.toNat = 2 ^ a := by
  have hpred : (t - 1).toNat = a := by
    rw [toNat_pred (by omega), ht, Nat.add_sub_cancel]
  have hlt : t - 1 < 31 := UInt32.lt_iff_toNat_lt.mpr (hpred.symm ▸ ha)
  have hpow : 2 ^ a < 2 ^ 32 := Nat.pow_lt_pow_right (show 1 < 2 by decide) (by omega)
  rw [oneShift, if_pos hlt, yields_some, UInt32.toNat_shiftLeft, hpred,
    Nat.mod_eq_of_lt (show a < 32 by omega), UInt32.toNat_one, Nat.shiftLeft_eq, Nat.one_mul]
  exact Nat.mod_eq_of_lt hpow

/-- Between two merges, the array is in order at some power of two. -/
structure Halving (n a : ℕ) (s₀ s : State) (p : ℕ) : Prop where
  permutes : Permutes n s₀ s
  stride : ∃ c, c ≤ a + 1 ∧ p = 2 ^ c / 2 ∧ StrideSorted n (2 ^ c) s.A

/-- The loop over `p` merges until neighbours are in order. -/
theorem halving_yields {s : State} {n p t : UInt32} {fuel a : ℕ} (hsize : n.toNat ≤ s.size)
    (ht : t.toNat = a + 1) (ha : a < 31) (hlow : 2 ^ a ≤ n.toNat) (hhigh : n.toNat < 2 * 2 ^ a)
    (hp : p.toNat = 2 ^ a) (hfuel : n.toNat + 1 < fuel) :
    Yields (whileLoop
      (fun ((s, p) : State × UInt32) => some ((s, p), p > 0))
      (fun (s, p) => do
        let q ← oneShift (t - 1)
        let s ← merge fuel n p s q 0 p
        return (s, p >>> 1))
      fuel (s, p)) fun (s', _) => Permutes n.toNat s s' ∧ StrideSorted n.toNat 1 s'.A := by
  apply whileLoop_rule (fun (s', p) => Halving n.toNat a s s' p.toNat) (fun (_, p) => p.toNat)
  · rintro ⟨s', p'⟩ ⟨hperm, c, hc, hpc, hstride⟩
    simp only [yields_some, gt_iff_lt, decide_eq_true_eq, UInt32.lt_iff_toNat_lt,
      UInt32.toNat_zero]
    split
    · next hpos =>
        obtain ⟨b, rfl⟩ := Nat.exists_eq_succ_of_ne_zero (show c ≠ 0 by
          rintro rfl
          rw [hpc] at hpos
          exact absurd hpos (by decide))
        rw [Nat.succ_eq_add_one, Nat.pow_succ, Nat.mul_div_cancel _ (by decide)] at hpc
        rw [Nat.succ_eq_add_one, Nat.pow_succ, Nat.mul_comm, ← hpc] at hstride
        apply (oneShift_yields ht ha).bind
        intro q hqa
        apply (merge_yields hpc (Nat.succ_le_succ_iff.mp hc) (hperm.size ▸ hsize) hlow hhigh.le
          hqa hfuel hstride).bind
        intro s'' hs''
        simp only [Option.pure_def, yields_some, toNat_half]
        refine ⟨⟨hperm.trans hs''.1, b, by omega, by rw [hpc], hpc ▸ hs''.2⟩, by omega⟩
    · next hzero =>
        have hone : c = 0 := by
          by_contra hne
          obtain ⟨b, rfl⟩ := Nat.exists_eq_succ_of_ne_zero hne
          rw [Nat.succ_eq_add_one, Nat.pow_succ, Nat.mul_div_cancel _ (by decide)] at hpc
          have := Nat.two_pow_pos b
          omega
        subst hone
        exact ⟨hperm, hstride⟩
  · refine ⟨Permutes.refl _ _, a + 1, le_rfl, ?_, strideSorted_of_le ?_⟩
    · rw [hp, Nat.pow_succ, Nat.mul_div_cancel _ (by decide)]
    · rw [Nat.pow_succ]
      omega
  · dsimp only
    omega

/-- `batcher_sort` ends on every array of fewer than `2 ^ 31` elements, with every index and
every difference `n - d` in range, in a sorted permutation. -/
theorem batcher_sort_sorts (s : State) (n : UInt32) (fuel : ℕ) (hn : n.toNat < 2 ^ 31)
    (hsize : s.size = n.toNat) (hfuel : n.toNat + 1 < fuel) :
    ∃ s', batcher_sort fuel s n = some s' ∧
      (contents n.toNat s'.A).Perm (contents n.toNat s.A) ∧
      (contents n.toNat s'.A).Pairwise (· ≤ ·) := by
  have hsorted : Yields (batcher_sort fuel s n) fun s' =>
      Permutes n.toNat s s' ∧ StrideSorted n.toNat 1 s'.A := by
    rw [batcher_sort]
    split
    · next hzero =>
        subst hzero
        exact ⟨s, rfl, Permutes.refl _ _, strideSorted_of_le (Nat.zero_le 1)⟩
    · next hne =>
        have hpos : 0 < n.toNat := by
          rw [← UInt32.toNat_inj, UInt32.toNat_zero] at hne
          omega
        apply (bitCount_yields hpos (by omega)).bind
        rintro t ⟨a, ht, hlow, hhigh⟩
        have ha : a < 31 :=
          (Nat.pow_lt_pow_iff_right (show 1 < 2 by decide)).mp (lt_of_le_of_lt hlow hn)
        apply (oneShift_yields ht ha).bind
        intro p hpa
        apply (halving_yields hsize.ge ht ha hlow hhigh hpa hfuel).bind
        rintro ⟨s', p'⟩ h
        exact (yields_some s').mpr h
  obtain ⟨s', hs', hperm, hstride⟩ := hsorted
  exact ⟨s', hs', hperm.perm, pairwise_contents_of_succ hstride⟩

theorem batcher_sort_sorts_five :
    ∃ s', batcher_sort 10 (ofList [4, 1, 3, 1, 2]) 5 = some s' ∧
      (contents 5 s'.A).Perm (contents 5 (ofList [4, 1, 3, 1, 2]).A) ∧
      (contents 5 s'.A).Pairwise (· ≤ ·) :=
  batcher_sort_sorts (ofList [4, 1, 3, 1, 2]) 5 10 (by decide) rfl (by decide)

end FavoriteAssignments.Sorting.Batcher
