import FavoriteAssignments.Library.Loops
import FavoriteAssignments.Library.Rearrangement

/-! # Counters and memory of the sorting programs

`stats.c`, and the array that a sort gets a pointer to. An access at an index outside of
the memory behind the pointer is a failure. -/

namespace FavoriteAssignments.Sorting

open Loops Rearrangement

instance linearOrder_uint32 : LinearOrder UInt32 where
  le_refl _ := UInt32.le_refl _
  le_trans _ _ _ := UInt32.le_trans
  lt_iff_le_not_ge x y := by
    rw [UInt32.lt_iff_toNat_lt, UInt32.le_iff_toNat_le, UInt32.le_iff_toNat_le]
    omega
  le_antisymm _ _ := UInt32.le_antisymm
  le_total _ _ := UInt32.le_total _ _
  toDecidableLE := inferInstance
  toDecidableLT := inferInstance
  toDecidableEq := inferInstance

structure Stats where
  moves : UInt64
  compares : UInt64

/-- What a sort reads and writes: the counters behind `stats` and the array behind `A`, of
which the indices below `size` may be accessed. -/
structure State where
  stats : Stats
  size : ℕ
  A : ℕ → UInt32

/-- Fresh counters and an array with the given elements. -/
def ofList (xs : List UInt32) : State := ⟨⟨0, 0⟩, xs.length, fun i => xs.getD i 0⟩

/-- `A[i]` on the right of an assignment. -/
def load (s : State) (i : UInt32) : Option UInt32 :=
  if i.toNat < s.size then some (s.A i.toNat) else none

/-- `A[i] = x`. -/
def store (s : State) (i x : UInt32) : Option State :=
  if i.toNat < s.size then some { s with A := Function.update s.A i.toNat x } else none

def cmp (s : State) (x y : UInt32) : State × ℤ :=
  ({ s with stats := { s.stats with compares := s.stats.compares + 1 } },
    if x < y then -1 else if x > y then 1 else 0)

def move (s : State) (x : UInt32) : State × UInt32 :=
  ({ s with stats := { s.stats with moves := s.stats.moves + 1 } }, x)

/-- `swap(stats, &A[i], &A[j])`. -/
def swap (s : State) (i j : UInt32) : Option State := do
  let s := { s with stats := { s.stats with moves := s.stats.moves + 3 } }
  let t ← load s i
  let y ← load s j
  let s ← store s i y
  store s j t

/-! ## What the operations do -/

section Operations

variable {s : State} {i j x y : UInt32}

theorem load_eq (hi : i.toNat < s.size) : load s i = some (s.A i.toNat) := if_pos hi

theorem store_yields (hi : i.toNat < s.size) (x : UInt32) : Yields (store s i x) fun s' =>
    s'.size = s.size ∧ s'.A = Function.update s.A i.toNat x := by
  rw [store, if_pos hi]
  exact ⟨_, rfl, rfl, rfl⟩

@[simp] theorem move_A : (move s x).1.A = s.A := rfl

@[simp] theorem move_size : (move s x).1.size = s.size := rfl

@[simp] theorem cmp_A : (cmp s x y).1.A = s.A := rfl

@[simp] theorem cmp_size : (cmp s x y).1.size = s.size := rfl

theorem cmp_eq_one_iff : (cmp s x y).2 = 1 ↔ y < x := by
  rw [cmp]
  dsimp only
  split
  · next h => simpa using h.le
  · next h => split <;> simp_all

theorem cmp_neg_iff : (cmp s x y).2 < 0 ↔ x < y := by
  rw [cmp]
  dsimp only
  split
  · next h => simpa using h
  · next h => split <;> simp_all

theorem cmp_nonneg_iff : 0 ≤ (cmp s x y).2 ↔ y ≤ x := by
  rw [← not_lt, cmp_neg_iff, not_lt]

theorem swap_yields (hi : i.toNat < s.size) (hj : j.toNat < s.size) :
    Yields (swap s i j) fun s' =>
      s'.size = s.size ∧ s'.A = s.A ∘ Equiv.swap i.toNat j.toNat := by
  rw [swap]
  simp only [load, store, hi, hj, if_true, Option.bind_eq_bind, Option.bind_some, yields_some,
    true_and]
  funext k
  by_cases hk : k = j.toNat
  · subst hk
    simp
  · by_cases hk' : k = i.toNat
    · subst hk'
      simp [hk]
    · simp [hk, hk', Equiv.swap_apply_of_ne_of_ne]

end Operations

/-! ## Permuting the first elements -/

/-- The memory is the same as before, but for the order of the first `n` elements. -/
structure Permutes (n : ℕ) (s₀ s : State) : Prop where
  size : s.size = s₀.size
  rearranges : Rearranges (Set.Iio n) s₀.A s.A

section Permutes

variable {n : ℕ} {s s₁ s₂ : State}

theorem Permutes.refl (n : ℕ) (s : State) : Permutes n s s :=
  ⟨rfl, Rearranges.refl _ _⟩

theorem Permutes.trans (h : Permutes n s s₁) (h' : Permutes n s₁ s₂) : Permutes n s s₂ :=
  ⟨h'.size.trans h.size, h.rearranges.trans h'.rearranges⟩

theorem Permutes.perm (h : Permutes n s s₁) : (contents n s₁.A).Perm (contents n s.A) :=
  h.rearranges.perm

end Permutes

end FavoriteAssignments.Sorting
