import Mathlib.Algebra.Group.Int.Defs
import Mathlib.Algebra.Group.Nat.Defs
import Mathlib.Algebra.Group.Prod
import Mathlib.Algebra.BigOperators.Group.Finset.Piecewise
import Mathlib.Algebra.Order.BigOperators.Group.Finset
import Mathlib.Algebra.Ring.Int.Defs
import Mathlib.Data.Finset.Prod

/-! # Outer-totalistic cellular automata

Cells are the elements of a commutative group, a neighbourhood is a finite set of offsets,
and a rule looks at the cell itself and at the number of its live neighbours. -/

namespace FavoriteAssignments.CellularAutomaton

variable {G : Type*} [AddCommGroup G]

/-- The number of offsets that lead from `z` to a live cell. -/
def census (offsets : Finset G) (X : G → Bool) (z : G) : ℕ :=
  (offsets.filter fun o => X (z + o) = true).card

def step (rule : Bool → ℕ → Bool) (offsets : Finset G) (X : G → Bool) (z : G) : Bool :=
  rule (X z) (census offsets X z)

/-- One step on a bounded region: no cell outside of it is ever alive. -/
def stepWithin (region : G → Bool) (rule : Bool → ℕ → Bool) (offsets : Finset G)
    (X : G → Bool) (z : G) : Bool :=
  region z && step rule offsets X z

/-- The configuration seen from a shifted origin. -/
def translate (s : G) (X : G → Bool) (z : G) : Bool := X (z + s)

variable {offsets : Finset G} {X Y : G → Bool} {rule : Bool → ℕ → Bool}

theorem census_eq_sum (offsets : Finset G) (X : G → Bool) (z : G) :
    census offsets X z = ∑ o ∈ offsets, (X (z + o)).toNat := by
  rw [census, Finset.card_filter]
  apply Finset.sum_congr rfl
  intro o _
  cases X (z + o) <;> rfl

theorem census_le (offsets : Finset G) (X : G → Bool) (z : G) :
    census offsets X z ≤ offsets.card :=
  Finset.card_filter_le _ _

theorem census_translate (s z : G) :
    census offsets (translate s X) z = census offsets X (z + s) := by
  simp only [census, translate, add_right_comm z _ s]

/-- A step treats all places alike. -/
theorem step_translate (s : G) (X : G → Bool) :
    step rule offsets (translate s X) = translate s (step rule offsets X) := by
  funext z
  rw [step, census_translate]
  rfl

/-! ## A count that leaves some offsets out -/

/-- Leaving out the offsets in `missed` is harmless exactly when none of them leads to a
live cell. -/
theorem sum_ite_eq_census_iff (missed : G → Prop) [DecidablePred missed] (z : G) :
    ∑ o ∈ offsets, (if missed o then 0 else (X (z + o)).toNat) = census offsets X z ↔
      ∀ o ∈ offsets, missed o → X (z + o) = false := by
  rw [census_eq_sum, Finset.sum_eq_sum_iff_of_le]
  · apply forall₂_congr
    intro o _
    by_cases ho : missed o <;> cases X (z + o) <;> simp [ho]
  · intro o _
    split
    · exact Nat.zero_le _
    · exact le_rfl

/-! ## Conway's rule in the plane -/

/-- The offsets `(i, j)` with `i` and `j` in -1, 0, 1, other than `(0, 0)`. -/
def moore : Finset (ℤ × ℤ) := (({-1, 0, 1} : Finset ℤ) ×ˢ {-1, 0, 1}).erase 0

/-- B3/S23. -/
def conway (alive : Bool) (neighbours : ℕ) : Bool :=
  if alive then neighbours = 2 ∨ neighbours = 3 else neighbours = 3

theorem sum_moore (f : ℤ × ℤ → ℕ) :
    ∑ o ∈ moore, f o = f (-1, 0) + f (0, -1) + f (1, 0) + f (0, 1) +
      f (1, 1) + f (-1, 1) + f (-1, -1) + f (1, -1) := by
  have hmoore : moore =
      {(-1, 0), (0, -1), (1, 0), (0, 1), (1, 1), (-1, 1), (-1, -1), (1, -1)} := by decide
  rw [hmoore]
  simp [Finset.sum_insert, Nat.add_assoc]

theorem census_moore_le (X : ℤ × ℤ → Bool) (z : ℤ × ℤ) : census moore X z ≤ 8 :=
  census_le moore X z

end FavoriteAssignments.CellularAutomaton
