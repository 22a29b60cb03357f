import Mathlib.Data.List.Nodup
import Mathlib.Data.Set.Card
import Mathlib.Logic.Function.Basic

/-! # Blocks of memory

`malloc` gives out a new address each time, so that an address which has been given back is
never in use again: reading it, writing it or giving it back once more has no result. -/

namespace FavoriteAssignments.Blocks

variable {α : Type*}

structure Memory (α : Type*) where
  block : ℕ → Option α
  fresh : ℕ

namespace Memory

def empty : Memory α := ⟨fun _ => none, 0⟩

def malloc (m : Memory α) (b : α) : Memory α × ℕ :=
  (⟨Function.update m.block m.fresh (some b), m.fresh + 1⟩, m.fresh)

def store (m : Memory α) (p : ℕ) (b : α) : Option (Memory α) :=
  (m.block p).map fun _ => { m with block := Function.update m.block p (some b) }

def free (m : Memory α) (p : ℕ) : Option (Memory α) :=
  (m.block p).map fun _ => { m with block := Function.update m.block p none }

end Memory

/-- The blocks in use are `cells`, each at an address of its own. -/
structure Owns (m : Memory α) (cells : List (ℕ × α)) : Prop where
  nodup : (cells.map Prod.fst).Nodup
  block_iff : ∀ p b, m.block p = some b ↔ (p, b) ∈ cells
  allocated : ∀ p b, (p, b) ∈ cells → p < m.fresh

namespace Owns

variable {m : Memory α} {cells cells' : List (ℕ × α)} {p : ℕ} {b c : α}

theorem empty : Owns (Memory.empty : Memory α) [] :=
  ⟨List.nodup_nil, by simp [Memory.empty], by simp⟩

theorem perm (h : Owns m cells) (hperm : cells.Perm cells') : Owns m cells' := by
  refine ⟨(hperm.map Prod.fst).nodup_iff.mp h.nodup, ?_, ?_⟩
  · intro p b
    rw [h.block_iff, hperm.mem_iff]
  · intro p b hin
    exact h.allocated p b (hperm.mem_iff.mpr hin)

theorem read (h : Owns m cells) (hin : (p, b) ∈ cells) : m.block p = some b :=
  (h.block_iff p b).mpr hin

/-- The other blocks of a memory are elsewhere. -/
theorem ne_of_mem (h : Owns m ((p, b) :: cells)) {q : ℕ} (hin : (q, c) ∈ cells) : q ≠ p := by
  rintro rfl
  exact (List.nodup_cons.mp h.nodup).1 (List.mem_map.mpr ⟨(q, c), hin, rfl⟩)

theorem malloc (h : Owns m cells) (b : α) : Owns (m.malloc b).1 ((m.fresh, b) :: cells) := by
  have hne : ∀ q c, (q, c) ∈ cells → q ≠ m.fresh := fun q c hin =>
    Nat.ne_of_lt (h.allocated q c hin)
  refine ⟨?_, ?_, ?_⟩
  · rw [List.map_cons, List.nodup_cons]
    refine ⟨?_, h.nodup⟩
    intro hin
    obtain ⟨⟨q, c⟩, hq, heq⟩ := List.mem_map.mp hin
    exact hne q c hq heq
  · intro q c
    simp only [Memory.malloc, Function.update_apply, List.mem_cons, Prod.mk.injEq]
    split
    · next heq =>
        subst heq
        constructor
        · intro hb
          exact Or.inl ⟨rfl, (Option.some.inj hb).symm⟩
        · rintro (⟨-, rfl⟩ | hin)
          · rfl
          · exact absurd rfl (hne _ c hin)
    · next hq => rw [h.block_iff, or_iff_right (fun hc => hq hc.1)]
  · intro q c hin
    rcases List.mem_cons.mp hin with heq | hin
    · rw [(Prod.mk.inj heq).1]
      exact Nat.lt_succ_self m.fresh
    · exact Nat.lt_succ_of_lt (h.allocated q c hin)

theorem store (h : Owns m ((p, b) :: cells)) (c : α) :
    ∃ m', m.store p c = some m' ∧ Owns m' ((p, c) :: cells) := by
  refine ⟨_, by rw [Memory.store, h.read List.mem_cons_self, Option.map_some], h.nodup, ?_, ?_⟩
  · intro q d
    simp only [Function.update_apply, List.mem_cons, Prod.mk.injEq]
    split
    · next heq =>
        subst heq
        constructor
        · intro hd
          exact Or.inl ⟨rfl, (Option.some.inj hd).symm⟩
        · rintro (⟨-, rfl⟩ | hin)
          · rfl
          · exact absurd rfl (h.ne_of_mem hin)
    · next hq =>
        rw [h.block_iff, List.mem_cons, Prod.mk.injEq, or_iff_right (fun hc => hq hc.1),
          or_iff_right (fun hc => hq hc.1)]
  · intro q d hin
    rcases List.mem_cons.mp hin with heq | hin
    · obtain ⟨rfl, -⟩ := Prod.mk.inj heq
      exact h.allocated q b List.mem_cons_self
    · exact h.allocated q d (List.mem_cons_of_mem _ hin)

theorem free (h : Owns m ((p, b) :: cells)) : ∃ m', m.free p = some m' ∧ Owns m' cells := by
  refine ⟨_, by rw [Memory.free, h.read List.mem_cons_self, Option.map_some],
    (List.nodup_cons.mp h.nodup).2, ?_, ?_⟩
  · intro q d
    simp only [Function.update_apply]
    split
    · next heq =>
        subst heq
        simp only [reduceCtorEq, false_iff]
        intro hin
        exact h.ne_of_mem hin rfl
    · next hq => rw [h.block_iff, List.mem_cons, Prod.mk.injEq, or_iff_right (fun hc => hq hc.1)]
  · intro q d hin
    exact h.allocated q d (List.mem_cons_of_mem _ hin)

/-- As many blocks are in use as there are cells. -/
theorem ncard (h : Owns m cells) : {p | m.block p ≠ none}.ncard = cells.length := by
  have hset : {p | m.block p ≠ none} = ((cells.map Prod.fst).toFinset : Set ℕ) := by
    ext p
    simp [Option.ne_none_iff_exists', h.block_iff]
  rw [hset, Set.ncard_coe_finset, List.toFinset_card_of_nodup h.nodup, List.length_map]

end Owns

end FavoriteAssignments.Blocks
