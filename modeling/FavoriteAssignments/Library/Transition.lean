import Mathlib.Logic.Basic

/-! # Labelled transition systems

Reachability along steps that meet a side condition, with the induction
principle every safety argument of a system uses. -/

namespace FavoriteAssignments.Transition

variable {σ α : Type*}

/-- The states reached from `init` by steps each of which meets `ok` in the
state it starts from. -/
inductive Reachable (init : σ → Prop) (step : σ → α → σ → Prop) (ok : σ → α → Prop) :
    σ → Prop where
  | start {s} : init s → Reachable init step ok s
  | next {s a s'} : Reachable init step ok s → ok s a → step s a s' → Reachable init step ok s'

/-- No side condition. -/
def Always (_ : σ) (_ : α) : Prop := True

variable {init : σ → Prop} {step : σ → α → σ → Prop} {ok : σ → α → Prop} {s : σ}

/-- A property that holds initially and is kept by every admitted step holds in
every reachable state. -/
theorem Reachable.invariant {P : σ → Prop} (h : Reachable init step ok s)
    (hinit : ∀ s, init s → P s)
    (hstep : ∀ s a s', P s → ok s a → step s a s' → P s') : P s := by
  induction h with
  | start h => exact hinit _ h
  | next _ hok hs ih => exact hstep _ _ _ ih hok hs

/-! ## Partial step functions -/

instance (s : σ) (a : α) : Decidable (Always s a) := inferInstanceAs (Decidable True)

section Run

variable {next : σ → α → Option σ} {actions : List α} {s' : σ} [∀ s a, Decidable (ok s a)]

/-- Actions that all go through and meet the side condition. -/
def runWhile (ok : σ → α → Prop) [∀ s a, Decidable (ok s a)] (next : σ → α → Option σ)
    (s : σ) (actions : List α) : Option σ :=
  actions.foldlM (fun s a => if ok s a then next s a else none) s

theorem Reachable.runWhile (hs : Reachable init (fun s a s' => next s a = some s') ok s)
    (h : runWhile ok next s actions = some s') :
    Reachable init (fun s a s' => next s a = some s') ok s' := by
  induction actions generalizing s with
  | nil =>
      obtain rfl : s = s' := by simpa [Transition.runWhile] using h
      exact hs
  | cons a actions ih =>
      obtain ⟨mid, hmid, hrest⟩ : ∃ mid, (if ok s a then next s a else none) = some mid ∧
          Transition.runWhile ok next mid actions = some s' := by
        simpa [Transition.runWhile, Option.bind_eq_some_iff] using h
      split at hmid
      · next hok => exact ih (hs.next hok hmid) hrest
      · cases hmid

/-- A test passed at the end of a run is passed by a reachable state. -/
theorem exists_reachable_of_run {f : σ → Bool} (hinit : init s)
    (h : (Transition.runWhile ok next s actions).any f = true) :
    ∃ s', Reachable init (fun s a s' => next s a = some s') ok s' ∧ f s' = true := by
  cases hrun : Transition.runWhile ok next s actions with
  | none => simp [hrun] at h
  | some s' => exact ⟨s', (Reachable.start hinit).runWhile hrun, by simpa [hrun] using h⟩

end Run

end FavoriteAssignments.Transition
