import Mathlib.Init

/-! # Feistel networks

A round exchanges two halves and mixes one of them with a function of the other. Rounds are
undone in the opposite order, whatever their functions are, because mixing alone is undone. -/

namespace FavoriteAssignments.Feistel

variable {α : Type*}

/-- The round with function `f`. -/
def round (mix : α → α → α) (f : α → α) (b : α × α) : α × α := (b.2, mix b.1 (f b.2))

/-- The round that undoes it: the halves stand the other way round. -/
def unround (unmix : α → α → α) (f : α → α) (b : α × α) : α × α := (unmix b.2 (f b.1), b.1)

/-- Rounds from the first function to the last. -/
def rounds (mix : α → α → α) (fs : List (α → α)) (b : α × α) : α × α :=
  fs.foldl (fun b f => round mix f b) b

/-- The rounds undone from the last function to the first. -/
def unrounds (unmix : α → α → α) (fs : List (α → α)) (b : α × α) : α × α :=
  fs.foldr (unround unmix) b

variable {mix unmix : α → α → α}

@[simp] theorem rounds_nil (b : α × α) : rounds mix [] b = b := rfl

@[simp] theorem rounds_cons (f : α → α) (fs : List (α → α)) (b : α × α) :
    rounds mix (f :: fs) b = rounds mix fs (round mix f b) := rfl

@[simp] theorem unrounds_nil (b : α × α) : unrounds unmix [] b = b := rfl

@[simp] theorem unrounds_cons (f : α → α) (fs : List (α → α)) (b : α × α) :
    unrounds unmix (f :: fs) b = unround unmix f (unrounds unmix fs b) := rfl

/-- The round that was done last is undone first. -/
theorem unrounds_concat (fs : List (α → α)) (f : α → α) (b : α × α) :
    unrounds unmix (fs ++ [f]) b = unrounds unmix fs (unround unmix f b) := by
  simp [unrounds]

theorem unrounds_rounds (h : ∀ x y, unmix (mix x y) y = x) (fs : List (α → α)) (b : α × α) :
    unrounds unmix fs (rounds mix fs b) = b := by
  induction fs generalizing b with
  | nil => rfl
  | cons f fs ih =>
      rw [rounds_cons, unrounds_cons, ih, unround, round]
      simp only [h]

theorem rounds_unrounds (h : ∀ x y, mix (unmix x y) y = x) (fs : List (α → α)) (b : α × α) :
    rounds mix fs (unrounds unmix fs b) = b := by
  induction fs with
  | nil => rfl
  | cons f fs ih =>
      rw [unrounds_cons, rounds_cons, unround, round]
      simp only [h]
      exact ih

end FavoriteAssignments.Feistel
