import Mathlib.Data.Int.Init
import Mathlib.Data.Int.Cast.Basic
import Mathlib.Logic.Function.Basic

/-! # Ring buffers

A list laid out in the slots of a circular array, starting at a front slot and
wrapping at the capacity. A set of live slots marks which of them are in use. -/

namespace FavoriteAssignments.RingBuffer

variable {E : Type*} {capacity front : ℤ}

/-- The slot `i` places behind the front. -/
def pos (capacity front : ℤ) (i : ℕ) : ℤ := (front + i) % capacity

theorem pos_nonneg (h : 1 ≤ capacity) (i : ℕ) : 0 ≤ pos capacity front i :=
  Int.emod_nonneg _ (by omega)

theorem pos_lt (h : 1 ≤ capacity) (i : ℕ) : pos capacity front i < capacity :=
  Int.emod_lt_of_pos _ (by omega)

theorem pos_zero (h0 : 0 ≤ front) (h : front < capacity) : pos capacity front 0 = front := by
  simp [pos, Int.emod_eq_of_lt h0 h]

/-- Moving the front by one slot shifts every place by one. -/
theorem pos_succ (i : ℕ) : pos capacity (pos capacity front 1) i = pos capacity front (i + 1) := by
  simp only [pos, Int.emod_add_emod]
  congr 1
  omega

/-- Places less than one turn apart are different slots. -/
theorem pos_inj {i j : ℕ} (hi : i < capacity) (hj : j < capacity)
    (h : pos capacity front i = pos capacity front j) : i = j := by
  have hmod : (front + i - (front + j)) % capacity = 0 :=
    Int.emod_eq_emod_iff_emod_sub_eq_zero.mp h
  obtain ⟨c, hc⟩ := Int.dvd_of_emod_eq_zero hmod
  have hzero : c = 0 := by
    rcases Int.lt_trichotomy c 0 with hneg | hzero | hpos
    · have : capacity * c ≤ capacity * (-1) := Int.mul_le_mul_of_nonneg_left (by omega) (by omega)
      omega
    · exact hzero
    · have : capacity * 1 ≤ capacity * c := Int.mul_le_mul_of_nonneg_left (by omega) (by omega)
      omega
  simp only [hzero, Int.mul_zero] at hc
  omega

/-- The slots from `front` on hold `items`, and exactly these slots are live. -/
structure Holds (capacity front : ℤ) (slots : ℤ → E) (live : ℤ → Bool) (items : List E) :
    Prop where
  length_le : items.length ≤ capacity
  slot : ∀ i (h : i < items.length), slots (pos capacity front i) = items[i]
  live_iff : ∀ j, live j = true ↔ ∃ i < items.length, j = pos capacity front i

theorem Holds.nil (h : 0 ≤ capacity) (slots : ℤ → E) :
    Holds capacity front slots (fun _ => false) [] :=
  ⟨by simpa using h, by simp, by simp⟩

variable {slots : ℤ → E} {live : ℤ → Bool} {items : List E}

/-- The slot behind the last item is not live while there is room. -/
theorem Holds.end_not_live (h : Holds capacity front slots live items)
    (hroom : items.length < capacity) : live (pos capacity front items.length) = false := by
  cases hl : live (pos capacity front items.length) with
  | false => rfl
  | true =>
      obtain ⟨i, hi, heq⟩ := (h.live_iff _).mp hl
      have := pos_inj hroom (by omega) heq
      omega

theorem Holds.push (h : Holds capacity front slots live items)
    (hroom : items.length < capacity) (e : E) :
    Holds capacity front (Function.update slots (pos capacity front items.length) e)
      (Function.update live (pos capacity front items.length) true) (items ++ [e]) := by
  have hne : ∀ i < items.length, pos capacity front i ≠ pos capacity front items.length := by
    intro i hi heq
    have := pos_inj (by omega) hroom heq
    omega
  refine ⟨by simp; omega, ?_, ?_⟩
  · intro i hi
    rcases Nat.lt_or_ge i items.length with hlt | hge
    · simp [hne i hlt, hlt, h.slot i hlt]
    · have hlast : i = items.length := by
        simp at hi
        omega
      simp [hlast]
  · intro j
    by_cases hj : j = pos capacity front items.length
    · simp only [hj, Function.update_self, true_iff]
      exact ⟨items.length, by simp, rfl⟩
    · simp only [Function.update_of_ne hj, h.live_iff, List.length_append, List.length_singleton]
      constructor
      · rintro ⟨i, hi, rfl⟩
        exact ⟨i, by omega, rfl⟩
      · rintro ⟨i, hi, rfl⟩
        rcases Nat.lt_or_ge i items.length with hlt | hge
        · exact ⟨i, hlt, rfl⟩
        · exact absurd (by rw [show i = items.length by omega]) hj

theorem Holds.front_eq {e : E} (h0 : 0 ≤ front) (hlt : front < capacity)
    (h : Holds capacity front slots live (e :: items)) : slots front = e := by
  have := h.slot 0 (by simp)
  simpa [pos_zero h0 hlt] using this

theorem Holds.front_live {e : E} (h0 : 0 ≤ front) (hlt : front < capacity)
    (h : Holds capacity front slots live (e :: items)) : live front = true :=
  (h.live_iff _).mpr ⟨0, by simp, (pos_zero h0 hlt).symm⟩

theorem Holds.pop {e : E} (h0 : 0 ≤ front) (hlt : front < capacity)
    (h : Holds capacity front slots live (e :: items)) :
    Holds capacity (pos capacity front 1) slots (Function.update live front false) items := by
  have hle : (items.length : ℤ) + 1 ≤ capacity := by simpa using h.length_le
  refine ⟨by omega, ?_, ?_⟩
  · intro i hi
    have := h.slot (i + 1) (by simpa using hi)
    simpa [pos_succ] using this
  · intro j
    by_cases hj : j = front
    · simp only [hj, Function.update_self, Bool.false_eq_true, false_iff]
      rintro ⟨i, hi, heq⟩
      have hsame : pos capacity front 0 = pos capacity front (i + 1) := by
        rw [pos_zero h0 hlt, ← pos_succ]
        exact heq
      have := pos_inj (by omega) (by omega) hsame
      omega
    · simp only [Function.update_of_ne hj, h.live_iff, pos_succ]
      constructor
      · rintro ⟨i, hi, rfl⟩
        cases i with
        | zero => exact absurd (pos_zero h0 hlt) hj
        | succ i => exact ⟨i, by simpa using hi, rfl⟩
      · rintro ⟨i, hi, rfl⟩
        exact ⟨i + 1, by simpa using hi, rfl⟩

end FavoriteAssignments.RingBuffer
