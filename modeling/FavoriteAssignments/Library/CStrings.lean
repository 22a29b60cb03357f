import FavoriteAssignments.Library.Positional
import Mathlib.Data.List.TakeWhile

/-! # Strings in buffers

A buffer of characters holds a string up to its first NUL. White space and digits are
those of the C locale. -/

namespace FavoriteAssignments.CStrings

def isspace (c : Char) : Bool := c = ' ' || (9 ≤ c.toNat && c.toNat ≤ 13)

/-- The number that decimal digits stand for. -/
def numeralValue (digits : List Char) : ℕ :=
  Positional.value 10 (digits.map fun c => c.toNat - '0'.toNat)

/-- The string in a buffer. -/
def cString (buffer : List Char) : List Char := buffer.takeWhile (· != '\x00')

theorem cString_eq {buffer : List Char} (h : '\x00' ∉ buffer) : cString buffer = buffer := by
  refine List.takeWhile_eq_self_iff.mpr fun c hc => ?_
  simp only [bne_iff_ne]
  rintro rfl
  exact h hc

theorem nul_not_mem_cString (buffer : List Char) : '\x00' ∉ cString buffer := by
  intro hmem
  have hpass := List.mem_takeWhile_imp hmem
  simp at hpass

theorem cString_length_le (buffer : List Char) : (cString buffer).length ≤ buffer.length :=
  (List.takeWhile_sublist _).length_le

theorem cString_append_nul {word : List Char} (hword : '\x00' ∉ word) (junk : List Char) :
    cString (word ++ '\x00' :: junk) = word := by
  induction word with
  | nil => simp [cString]
  | cons c word ih =>
      simp only [List.mem_cons, not_or] at hword
      have hrest := ih hword.2
      rw [cString] at hrest
      rw [cString, List.cons_append, List.takeWhile_cons, hrest]
      simp [Ne.symm hword.1]

/-- A buffer holds a word as its whole, or in front of a NUL. -/
theorem cString_eq_iff {buffer word : List Char} (hword : '\x00' ∉ word) :
    cString buffer = word ↔ buffer = word ∨ ∃ junk, buffer = word ++ '\x00' :: junk := by
  constructor
  · rintro rfl
    by_cases hnul : '\x00' ∈ buffer
    · obtain ⟨front, junk, rfl, hfront⟩ := List.eq_append_cons_of_mem hnul
      exact Or.inr ⟨junk, by rw [cString_append_nul hfront]⟩
    · exact Or.inl (cString_eq hnul).symm
  · intro h
    rcases h with rfl | ⟨junk, rfl⟩
    · exact cString_eq hword
    · exact cString_append_nul hword junk

end FavoriteAssignments.CStrings
