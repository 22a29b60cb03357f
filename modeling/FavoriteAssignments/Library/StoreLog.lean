import FavoriteAssignments.Library.Transition
import Mathlib.Data.List.Basic
import Mathlib.Logic.Function.Basic

/-! # Logs of stores

A memory after a list of stores, the newest first, and runs of a transition system with the stores
that were made on the way. A location holds what was stored there last. -/

namespace FavoriteAssignments.StoreLog

variable {ι β : Type*} [DecidableEq ι]

/-! ## Memories -/

/-- The memory after the stores. -/
def replay (A : ι → β) (log : List (ι × β)) : ι → β :=
  log.foldr (fun store A => Function.update A store.1 store.2) A

/-- What was stored last at a location, or else was there from the start. -/
def latest (A : ι → β) (log : List (ι × β)) (i : ι) : β := (log.lookup i).getD (A i)

variable (A : ι → β) (log : List (ι × β)) (i j : ι) (x : β)

theorem latest_cons : latest A ((j, x) :: log) i = if i = j then x else latest A log i := by
  rw [latest, List.lookup_cons, latest]
  split
  · next h =>
      rw [if_pos (beq_iff_eq.mp h)]
      rfl
  · next h => rw [if_neg (by simpa using h)]

theorem replay_cons : replay A ((j, x) :: log) = Function.update (replay A log) j x := rfl

theorem replay_append (new : List (ι × β)) : replay A (new ++ log) = replay (replay A log) new :=
  List.foldr_append

theorem replay_eq_latest : replay A log i = latest A log i := by
  induction log with
  | nil => rfl
  | cons store log ih => rw [replay_cons, Function.update_apply, latest_cons, ih]

/-- A location depends on what was there at the start of the log, and on no other location. -/
theorem replay_congr {A B : ι → β} (h : A i = B i) : replay A log i = replay B log i := by
  rw [replay_eq_latest, replay_eq_latest, latest, latest, h]

/-! ## Runs -/

section Runs

open Transition

variable {σ α : Type*} {s₀ s : σ} {step : σ → α → σ → Prop} {stores : σ → α → List (ι × β)}
  {log : List (ι × β)}

/-- The states reached from `s₀`, with the stores made since. -/
inductive Logged (s₀ : σ) (step : σ → α → σ → Prop) (stores : σ → α → List (ι × β)) :
    List (ι × β) → σ → Prop where
  | start : Logged s₀ step stores [] s₀
  | next {log s a s'} : Logged s₀ step stores log s → step s a s' →
      Logged s₀ step stores (stores s a ++ log) s'

omit [DecidableEq ι] in
/-- Every reachable state has a log. -/
theorem exists_logged (stores : σ → α → List (ι × β)) (h : Reachable (· = s₀) step Always s) :
    ∃ log, Logged s₀ step stores log s := by
  induction h with
  | start h =>
      cases h
      exact ⟨[], .start⟩
  | next _ _ hstep ih =>
      obtain ⟨log, hlog⟩ := ih
      exact ⟨_, hlog.next hstep⟩

/-- Where every step leaves the memory as its stores make it, so does a whole run. -/
theorem Logged.memory_eq (memory : σ → ι → β) (h : Logged s₀ step stores log s)
    (hstep : ∀ s a s', step s a s' → memory s' i = replay (memory s) (stores s a) i) :
    memory s i = latest (memory s₀) log i := by
  induction h with
  | start => rfl
  | next _ hs ih =>
      rw [hstep _ _ _ hs, ← replay_eq_latest, replay_append]
      exact replay_congr _ _ (ih.trans (replay_eq_latest _ _ _).symm)

end Runs

end FavoriteAssignments.StoreLog
