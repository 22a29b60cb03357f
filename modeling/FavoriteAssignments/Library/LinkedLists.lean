import Mathlib.Data.List.Nodup
import Mathlib.Logic.Function.Basic

/-! # Linked lists in a memory

Cells with a value and the address of the next cell. `Chain` says which cells can be reached
from an address: it is a function of the memory, so that a list that ends never meets a cell
twice, and only a change of one of its cells changes it. -/

namespace FavoriteAssignments.LinkedLists

variable {P α : Type*}

structure Cell (P α : Type*) where
  value : α
  next : Option P

/-- The cells that a memory has. -/
abbrev Cells (P α : Type*) := P → Option (Cell P α)

/-- The cells from `head` on, one after the other, up to a null pointer. -/
def Chain (cells : Cells P α) : Option P → List (P × α) → Prop
  | head, [] => head = none
  | head, (p, x) :: rest =>
      head = some p ∧ ∃ next, cells p = some ⟨x, next⟩ ∧ Chain cells next rest

variable {cells cells' : Cells P α} {head : Option P} {p q : P} {x y : α} {xs ys : List (P × α)}

@[simp] theorem chain_nil : Chain cells head [] ↔ head = none := Iff.rfl

/-- The memory and the first address determine the list. -/
theorem Chain.unique (h : Chain cells head xs) (h' : Chain cells head ys) : xs = ys := by
  induction xs generalizing head ys with
  | nil =>
      cases ys with
      | nil => rfl
      | cons y ys =>
          have hhead := h'.1
          rw [chain_nil.mp h] at hhead
          cases hhead
  | cons x xs ih =>
      obtain ⟨hhead, next, hcell, hrest⟩ := h
      cases ys with
      | nil =>
          rw [chain_nil.mp h'] at hhead
          cases hhead
      | cons y ys =>
          obtain ⟨hhead', next', hcell', hrest'⟩ := h'
          have hp : x.1 = y.1 := Option.some.inj (hhead.symm.trans hhead')
          rw [hp, hcell'] at hcell
          obtain ⟨hvalue, rfl⟩ := Cell.mk.inj (Option.some.inj hcell)
          rw [ih hrest hrest', Prod.ext hp hvalue.symm]

/-- The list from a cell in the middle on. -/
theorem Chain.from {front back : List (P × α)} (h : Chain cells head (front ++ (p, x) :: back)) :
    Chain cells (some p) ((p, x) :: back) := by
  induction front generalizing head with
  | nil =>
      obtain ⟨-, hrest⟩ := h
      exact ⟨rfl, hrest⟩
  | cons y front ih =>
      obtain ⟨-, next, -, hrest⟩ := h
      exact ih hrest

theorem Chain.cell (h : Chain cells head xs) (hp : (p, x) ∈ xs) :
    ∃ next, cells p = some ⟨x, next⟩ := by
  obtain ⟨front, back, rfl⟩ := List.append_of_mem hp
  obtain ⟨-, next, hcell, -⟩ := h.from
  exact ⟨next, hcell⟩

/-- A list that ends never comes back to a cell. -/
theorem Chain.nodup (h : Chain cells head xs) : (xs.map Prod.fst).Nodup := by
  induction xs generalizing head with
  | nil => exact List.nodup_nil
  | cons x xs ih =>
      obtain ⟨hhead, next, hcell, hrest⟩ := h
      rw [List.map_cons, List.nodup_cons]
      refine ⟨fun hmem => ?_, ih hrest⟩
      obtain ⟨⟨p, y⟩, hy, rfl⟩ := List.mem_map.mp hmem
      obtain ⟨front, back, rfl⟩ := List.append_of_mem hy
      have hagain : Chain cells (some x.1) (x :: (front ++ (x.1, y) :: back)) :=
        ⟨rfl, next, hcell, hrest⟩
      have hlength := congrArg List.length (hagain.unique hrest.from)
      simp at hlength
      omega

/-- A change elsewhere does not change the list. -/
theorem Chain.congr (h : Chain cells head xs) (hcells : ∀ p ∈ xs.map Prod.fst, cells' p = cells p) :
    Chain cells' head xs := by
  induction xs generalizing head with
  | nil => exact h
  | cons x xs ih =>
      obtain ⟨hhead, next, hcell, hrest⟩ := h
      exact ⟨hhead, next, (hcells _ List.mem_cons_self).trans hcell,
        ih hrest fun p hp => hcells p (List.mem_cons_of_mem _ hp)⟩

/-- The last cell points to a new one. -/
theorem Chain.append (h : Chain cells head (xs ++ [(p, x)])) (hnew : cells' q = some ⟨y, none⟩)
    (hlast : cells' p = some ⟨x, some q⟩) (hcells : ∀ a ∈ xs.map Prod.fst, cells' a = cells a) :
    Chain cells' head (xs ++ [(p, x)] ++ [(q, y)]) := by
  induction xs generalizing head with
  | nil => exact ⟨h.1, some q, hlast, rfl, none, hnew, rfl⟩
  | cons z xs ih =>
      obtain ⟨hhead, next, hcell, hrest⟩ := h
      refine ⟨hhead, next, (hcells z.1 List.mem_cons_self).trans hcell, ih hrest ?_⟩
      exact fun a ha => hcells a (List.mem_cons_of_mem _ ha)

end FavoriteAssignments.LinkedLists
