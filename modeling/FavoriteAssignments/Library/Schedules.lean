import Mathlib.Algebra.BigOperators.Intervals
import Mathlib.Order.Monotone.Basic

/-! # Schedules of transfers

A count is transferred by calls that may each take less than they are asked for. What
becomes of a loop of such calls is decided by whether their sizes add up to the count. -/

namespace FavoriteAssignments.Schedules

/-- What successive calls would transfer, each at least one byte and at most what it is
asked for. -/
structure Schedule (count : ℕ) where
  size : ℕ → ℕ
  pos : ∀ k, 0 < size k
  le : 0 < count → ∀ k, size k ≤ count

namespace Schedule

variable {count : ℕ}

/-- The bytes of the first `n` calls. -/
def moved (s : Schedule count) (n : ℕ) : ℕ := ∑ k ∈ Finset.range n, s.size k

/-- Some number of calls transfers the count exactly. -/
def Lands (s : Schedule count) : Prop := ∃ n, s.moved n = count

/-- Every call transfers all it is asked for. -/
def full (count : ℕ) : Schedule count where
  size _ := max 1 count
  pos _ := Nat.le_max_left 1 count
  le hpos _ := Nat.max_le.mpr ⟨hpos, Nat.le_refl count⟩

/-- The first call transfers one byte less. -/
def short (m : ℕ) : Schedule (m + 2) where
  size k := if k = 0 then m + 1 else m + 2
  pos k := by split <;> exact Nat.succ_pos _
  le _ k := by split <;> omega

theorem moved_succ (s : Schedule count) (n : ℕ) : s.moved (n + 1) = s.moved n + s.size n :=
  Finset.sum_range_succ s.size n

theorem moved_lt_succ (s : Schedule count) (n : ℕ) : s.moved n < s.moved (n + 1) := by
  rw [moved_succ]
  exact Nat.lt_add_of_pos_right (s.pos n)

theorem le_moved (s : Schedule count) (n : ℕ) : n ≤ s.moved n := by
  induction n with
  | zero => exact Nat.zero_le _
  | succ n ih => exact Nat.succ_le_of_lt (Nat.lt_of_le_of_lt ih (s.moved_lt_succ n))

theorem lands_full (count : ℕ) : (full count).Lands := by
  rcases Nat.eq_zero_or_pos count with rfl | hpos
  · exact ⟨0, rfl⟩
  · refine ⟨1, ?_⟩
    simp [moved, full, Nat.max_eq_right hpos]

/-- A call for one byte transfers it. -/
theorem lands_of_le_one (s : Schedule count) (h : count ≤ 1) : s.Lands := by
  rcases Nat.eq_zero_or_pos count with rfl | hpos
  · exact ⟨0, rfl⟩
  · have hle := s.le hpos 0
    have hsize := s.pos 0
    refine ⟨1, ?_⟩
    rw [moved, Finset.sum_range_one]
    omega

theorem not_lands_short (m : ℕ) : ¬(short m).Lands := by
  rintro ⟨n, hn⟩
  have hone : (short m).moved 1 = m + 1 := by simp [moved, short]
  have htwo : (short m).moved 2 = m + 1 + (m + 2) := by
    rw [moved_succ, hone]
    rfl
  have hmono : StrictMono (short m).moved := strictMono_nat_of_lt_succ (short m).moved_lt_succ
  have hlow : 1 < n := hmono.lt_iff_lt.mp (by rw [hone, hn]; omega)
  have hhigh : n < 2 := hmono.lt_iff_lt.mp (by rw [htwo, hn]; omega)
  omega

end Schedule

/-- Two sequences that say the same of a number until they first reach it, reach it or not
together. -/
theorem reaches_iff {f g : ℕ → ℕ} {c : ℕ} (h : ∀ n, (∀ k < n, f k ≠ c) → (f n = c ↔ g n = c)) :
    (∃ n, f n = c) ↔ ∃ n, g n = c := by
  classical
  constructor
  · intro hreach
    exact ⟨Nat.find hreach, (h _ fun k hk => Nat.find_min hreach hk).mp (Nat.find_spec hreach)⟩
  · rintro ⟨n, hn⟩
    by_contra hnever
    exact hnever ⟨n, (h n fun k _ hk => hnever ⟨k, hk⟩).mpr hn⟩

/-! ## Interrupted calls -/

/-- The result of a call: an error with `EINTR`, another error, or a transfer of at most
`n + 1` bytes. -/
inductive Result where
  | interrupted
  | failed
  | moved (n : ℕ)
  deriving DecidableEq

/-- The results of successive calls, which are not all interrupted from some call on. -/
structure Calls where
  result : ℕ → Result
  fair : ∀ turn, ∃ k, result (turn + k) ≠ .interrupted

/-- The bytes that the call is ready for, none for an error. -/
def Result.bytes : Result → ℕ
  | .moved n => n + 1
  | _ => 0

namespace Calls

/-- Every call transfers at most `n + 1` bytes. -/
def always (n : ℕ) : Calls := ⟨fun _ => .moved n, fun _ => ⟨0, nofun⟩⟩

/-- The first call is interrupted. -/
def interruptedOnce (n : ℕ) : Calls where
  result turn := if turn = 0 then .interrupted else .moved n
  fair turn := ⟨1, by simp⟩

theorem interruptedOnce_ne_failed (n turn : ℕ) : (interruptedOnce n).result turn ≠ .failed := by
  rw [interruptedOnce]
  dsimp only
  split <;> nofun

/-- How many calls in a row are interrupted. -/
def wait (c : Calls) (turn : ℕ) : ℕ := Nat.find (c.fair turn)

/-- Trying again after an interrupted call gets nearer to the next transfer. -/
theorem wait_succ_lt (c : Calls) {turn : ℕ} (h : c.result turn = .interrupted) :
    c.wait (turn + 1) < c.wait turn := by
  have hspec := Nat.find_spec (c.fair turn)
  cases hwait : c.wait turn with
  | zero =>
      rw [wait] at hwait
      rw [hwait] at hspec
      exact absurd h hspec
  | succ k =>
      rw [wait] at hwait
      rw [hwait, ← Nat.add_assoc, Nat.add_right_comm] at hspec
      exact Nat.lt_succ_of_le (Nat.find_min' (c.fair (turn + 1)) hspec)

end Calls

end FavoriteAssignments.Schedules
