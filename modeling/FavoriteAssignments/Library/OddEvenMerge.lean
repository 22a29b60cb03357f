import FavoriteAssignments.Library.Rearrangement
import FavoriteAssignments.Library.Strides

/-! # Odd-even merging with strides

A row of compare-exchanges at one distance, and the merge it takes to turn an array whose
elements at distance `2 * p` are in order into one whose elements at distance `p` are. The
array may have any length; its places fall into blocks of `p`, even and odd ones. -/

namespace FavoriteAssignments.OddEvenMerge

open Rearrangement Strides

variable {α : Type*} [LinearOrder α] {n d p q : ℕ} {A : ℕ → α}

/-! ## A row of compare-exchanges -/

/-- All selected places exchange at once with the place at distance `d` behind them. -/
def exchange (n d : ℕ) (sel : ℕ → Prop) [DecidablePred sel] (A : ℕ → α) (i : ℕ) : α :=
  if sel i then if i + d < n then min (A i) (A (i + d)) else A i
  else if d ≤ i ∧ sel (i - d) ∧ i < n then max (A (i - d)) (A i) else A i

section Exchange

variable {sel : ℕ → Prop} [DecidablePred sel] {i : ℕ} {x : α}

theorem le_exchange_iff (hi : sel i) :
    x ≤ exchange n d sel A i ↔ x ≤ A i ∧ (i + d < n → x ≤ A (i + d)) := by
  rw [exchange, if_pos hi]
  split
  · next h => simp [h]
  · next h => simp [h]

theorem exchange_le_self (hi : sel i) : exchange n d sel A i ≤ A i :=
  ((le_exchange_iff hi).mp le_rfl).1

theorem exchange_le_partner (hi : sel i) (hd : i + d < n) :
    exchange n d sel A i ≤ A (i + d) :=
  ((le_exchange_iff hi).mp le_rfl).2 hd

theorem exchange_le_iff (hi : ¬ sel i) (hn : i < n) :
    exchange n d sel A i ≤ x ↔ A i ≤ x ∧ (d ≤ i → sel (i - d) → A (i - d) ≤ x) := by
  rw [exchange, if_neg hi]
  by_cases hd : d ≤ i
  · by_cases hs : sel (i - d)
    · simp [hd, hs, hn, and_comm]
    · simp [hs]
  · simp [hd]

theorem self_le_exchange (hi : ¬ sel i) (hn : i < n) : A i ≤ exchange n d sel A i :=
  ((exchange_le_iff hi hn).mp le_rfl).1

theorem partner_le_exchange (hi : ¬ sel (i + d)) (hn : i + d < n) (hs : sel i) :
    A i ≤ exchange n d sel A (i + d) := by
  have h := ((exchange_le_iff (A := A) hi hn).mp le_rfl).2 (Nat.le_add_left d i)
  rw [Nat.add_sub_cancel] at h
  exact h hs

/-- A row keeps every order at a distance that the selection does not notice. -/
theorem StrideSorted.exchange {g : ℕ} (hsel : ∀ i, sel (i + g) ↔ sel i)
    (h : StrideSorted n g A) : StrideSorted n g (exchange n d sel A) := by
  intro i hn
  by_cases hi : sel i
  · rw [le_exchange_iff ((hsel i).mpr hi)]
    constructor
    · exact (exchange_le_self hi).trans (h i hn)
    · intro hd
      rw [Nat.add_right_comm] at hd ⊢
      exact (exchange_le_partner hi (by omega)).trans (h _ hd)
  · rw [exchange_le_iff hi (by omega)]
    constructor
    · exact (h i hn).trans (self_le_exchange (mt (hsel i).mp hi) hn)
    · intro hd hs
      obtain ⟨j, rfl⟩ := Nat.exists_eq_add_of_le' hd
      rw [Nat.add_sub_cancel] at hs ⊢
      apply (h j (by omega)).trans
      have hsel' := mt (hsel (j + d)).mp hi
      rw [Nat.add_right_comm] at hn hsel' ⊢
      exact partner_le_exchange hsel' hn ((hsel j).mpr hs)

/-! ### One pair after the other -/

theorem exchange_zero : exchange n d (fun i => sel i ∧ i < 0) A = A := by
  funext i
  simp [exchange]

theorem exchange_full (hsel : ∀ i, sel i → ¬ sel (i + d)) :
    exchange n d (fun i => sel i ∧ i < n - d) A = exchange n d sel A := by
  funext i
  rw [exchange, exchange]
  by_cases hi : sel i
  · have hprev : ¬ (d ≤ i ∧ sel (i - d)) := by
      rintro ⟨hd, hs⟩
      have := hsel _ hs
      rw [Nat.sub_add_cancel hd] at this
      exact this hi
    by_cases hn : i + d < n
    · simp [hi, hn, show i < n - d by omega]
    · rw [if_neg (by omega), if_neg (fun h => hprev ⟨h.1, h.2.1.1⟩), if_pos hi, if_neg hn]
  · have hiff : (d ≤ i ∧ (sel (i - d) ∧ i - d < n - d) ∧ i < n) ↔
        d ≤ i ∧ sel (i - d) ∧ i < n := by
      constructor
      · rintro ⟨hd, ⟨hs, _⟩, hn⟩
        exact ⟨hd, hs, hn⟩
      · rintro ⟨hd, hs, hn⟩
        exact ⟨hd, ⟨hs, by omega⟩, hn⟩
    simp only [hi, false_and, if_false, hiff]

theorem exchange_succ_of_not {k : ℕ} (hk : ¬ sel k) :
    exchange n d (fun i => sel i ∧ i < k + 1) A = exchange n d (fun i => sel i ∧ i < k) A := by
  have hiff : ∀ i, (sel i ∧ i < k + 1) ↔ (sel i ∧ i < k) := by
    intro i
    constructor
    · rintro ⟨hi, hlt⟩
      have : i ≠ k := fun h => hk (h ▸ hi)
      exact ⟨hi, by omega⟩
    · rintro ⟨hi, hlt⟩
      exact ⟨hi, by omega⟩
  funext i
  simp only [exchange, hiff]

theorem exchange_succ {k : ℕ} (hsel : ∀ i, sel i → ¬ sel (i + d)) (hk : sel k)
    (hn : k + d < n) : exchange n d (fun i => sel i ∧ i < k + 1) A =
      compareExchange k (k + d) (exchange n d (fun i => sel i ∧ i < k) A) := by
  have hd : d ≠ 0 := by
    rintro rfl
    exact hsel k hk hk
  have hk' : ¬ sel (k + d) := hsel k hk
  -- neither of the two places has been touched before
  have hlow : exchange n d (fun i => sel i ∧ i < k) A k = A k := by
    rw [exchange, if_neg (fun h => lt_irrefl k h.2), if_neg]
    rintro ⟨hdk, ⟨hs, _⟩, _⟩
    have := hsel _ hs
    rw [Nat.sub_add_cancel hdk] at this
    exact this hk
  have hhigh : exchange n d (fun i => sel i ∧ i < k) A (k + d) = A (k + d) := by
    rw [exchange, if_neg (fun h => hk' h.1), if_neg]
    rintro ⟨_, ⟨_, hlt⟩, _⟩
    omega
  funext i
  rw [compareExchange, hlow, hhigh]
  by_cases hi : i = k + d
  · subst hi
    rw [Function.update_self, exchange, if_neg (fun h => hk' h.1), Nat.add_sub_cancel, if_pos]
    exact ⟨by omega, ⟨hk, by omega⟩, hn⟩
  · rw [Function.update_of_ne hi]
    by_cases hik : i = k
    · subst hik
      rw [Function.update_self, exchange, if_pos ⟨hk, by omega⟩, if_pos hn]
    · rw [Function.update_of_ne hik]
      have hlt : (sel i ∧ i < k + 1) ↔ sel i ∧ i < k := by
        have : i < k + 1 ↔ i < k := by omega
        rw [this]
      have hlt' : (d ≤ i ∧ (sel (i - d) ∧ i - d < k + 1) ∧ i < n) ↔
          d ≤ i ∧ (sel (i - d) ∧ i - d < k) ∧ i < n := by
        constructor
        · rintro ⟨h₁, ⟨h₂, _⟩, h₄⟩
          exact ⟨h₁, ⟨h₂, by omega⟩, h₄⟩
        · rintro ⟨h₁, ⟨h₂, _⟩, h₄⟩
          exact ⟨h₁, ⟨h₂, by omega⟩, h₄⟩
      simp only [exchange, hlt, hlt']

end Exchange

/-! ## The merge -/

/-- The place `i` lies in an odd block. -/
def OddBlock (p i : ℕ) : Prop := i / p % 2 = 1

instance (p : ℕ) : DecidablePred (OddBlock p) := fun _ => inferInstanceAs (Decidable (_ = _))

/-- Between two rows of a merge: even blocks are in order with the odd blocks behind them,
and odd blocks with the even blocks at distance `far`. -/
structure Merging (n p far : ℕ) (A : ℕ → α) : Prop where
  even : ∀ i, ¬ OddBlock p i → i + p < n → A i ≤ A (i + p)
  stride : StrideSorted n (2 * p) A
  odd : ∀ i, OddBlock p i → i + far < n → A i ≤ A (i + far)

section Merge

variable {far k : ℕ}

theorem oddBlock_add_iff (hp : 0 < p) (i : ℕ) : OddBlock p (i + p) ↔ ¬ OddBlock p i := by
  rw [OddBlock, OddBlock, Nat.add_div_right i hp]
  omega

theorem oddBlock_add_double_iff (hp : 0 < p) (i k : ℕ) :
    OddBlock p (i + 2 * p * k) ↔ OddBlock p i := by
  rw [OddBlock, OddBlock, Nat.mul_comm 2 p, Nat.mul_assoc, Nat.add_mul_div_left i _ hp]
  omega

/-- An odd number of blocks further on, the parity is the other one. -/
theorem oddBlock_add_distance_iff (hp : 0 < p) (hd : d + p = 2 * p * k) (i : ℕ) :
    OddBlock p (i + d) ↔ ¬ OddBlock p i := by
  rw [← oddBlock_add_double_iff hp i k, ← hd, ← Nat.add_assoc, oddBlock_add_iff hp, not_not]

theorem le_of_oddBlock {i : ℕ} (hi : OddBlock p i) : p ≤ i := by
  by_contra hlt
  rw [OddBlock, Nat.div_eq_of_lt (not_le.mp hlt)] at hi
  cases hi

/-- The first row of a merge exchanges neighbouring blocks. -/
theorem merging_first (hp : 0 < p) (hfar : n ≤ far + p) (h : StrideSorted n (2 * p) A) :
    Merging n p far (exchange n p (fun i => ¬ OddBlock p i) A) := by
  constructor
  · intro i hi hn
    apply (exchange_le_self hi).trans
    exact partner_le_exchange (not_not.mpr ((oddBlock_add_iff hp i).mpr hi)) hn hi
  · apply StrideSorted.exchange _ h
    intro i
    exact not_congr (by simpa using oddBlock_add_double_iff hp i 1)
  · intro i hi hn
    have := le_of_oddBlock hi
    omega

/-- The next row exchanges at the distance `d`, about half of the last one. -/
theorem Merging.next (hp : 0 < p) (hd : d + p = 2 * p * k) (h : Merging n p (2 * d + p) A) :
    Merging n p d (exchange n d (OddBlock p) A) := by
  constructor
  · intro i hi hn
    have hin : i < n := by omega
    have hstride := h.stride.mul k
    rw [← hd] at hstride
    rw [le_exchange_iff ((oddBlock_add_iff hp i).mpr hi)]
    constructor
    · rw [exchange_le_iff hi hin]
      refine ⟨h.even i hi hn, ?_⟩
      intro hdi _
      obtain ⟨j, rfl⟩ := Nat.exists_eq_add_of_le' hdi
      rw [Nat.add_sub_cancel, Nat.add_assoc]
      exact hstride j (by omega)
    · intro hn'
      rw [exchange_le_iff hi hin]
      constructor
      · rw [show i + p + d = i + (d + p) by omega]
        exact hstride i (by omega)
      · intro hdi hodd
        obtain ⟨j, rfl⟩ := Nat.exists_eq_add_of_le' hdi
        rw [Nat.add_sub_cancel] at hodd ⊢
        rw [show j + d + p + d = j + (2 * d + p) by omega]
        exact h.odd j hodd (by omega)
  · apply StrideSorted.exchange _ h.stride
    intro i
    simpa using oddBlock_add_double_iff hp i 1
  · intro i hi hn
    apply (exchange_le_self hi).trans
    refine partner_le_exchange ?_ hn hi
    rw [oddBlock_add_distance_iff hp hd, not_not]
    exact hi

/-- After the row at distance `p`, all elements at that distance are in order. -/
theorem Merging.strideSorted (h : Merging n p p A) : StrideSorted n p A := by
  intro i hn
  by_cases hi : OddBlock p i
  · exact h.odd i hi hn
  · exact h.even i hi hn

end Merge

end FavoriteAssignments.OddEvenMerge
