import Mathlib.Algebra.Group.Nat.Defs
import Mathlib.Data.BitVec
import Mathlib.Data.List.Basic
import Mathlib.Data.List.OfFn

/-! # Objects as bytes

How values lie in memory, and binary streams that objects are written to and read from. A read
that comes to the end of the stream replaces the first bytes of the object only. -/

namespace FavoriteAssignments.Layouts

variable {α : Type*}

/-! ## Layouts -/

/-- A type whose values are `size` bytes that determine the value. -/
structure Layout (α : Type*) where
  size : ℕ
  bytes : α → List (BitVec 8)
  value : List (BitVec 8) → α
  length_bytes : ∀ x, (bytes x).length = size
  value_bytes : ∀ x, value (bytes x) = x

def byte : Layout (BitVec 8) where
  size := 1
  bytes x := [x]
  value l := l.headD 0
  length_bytes _ := rfl
  value_bytes _ := rfl

/-- A flag is one byte, zero or one. -/
def flag : Layout Bool where
  size := 1
  bytes x := [if x then 1 else 0]
  value l := l.headD 0 ≠ 0
  length_bytes _ := rfl
  value_bytes x := by cases x <;> rfl

/-- The `k` lowest digits to the base 256, the last first. -/
def digits : ℕ → ℕ → List (BitVec 8)
  | 0, _ => []
  | k + 1, n => BitVec.ofNat 8 n :: digits k (n / 256)

def ofDigits : List (BitVec 8) → ℕ
  | [] => 0
  | b :: bs => b.toNat + 256 * ofDigits bs

theorem length_digits (k n : ℕ) : (digits k n).length = k := by
  induction k generalizing n with
  | zero => rfl
  | succ k ih => rw [digits, List.length_cons, ih]

theorem ofDigits_digits (k n : ℕ) : ofDigits (digits k n) = n % 256 ^ k := by
  induction k generalizing n with
  | zero => rw [digits, ofDigits, pow_zero, Nat.mod_one]
  | succ k ih =>
      rw [digits, ofDigits, ih, BitVec.toNat_ofNat, show 2 ^ 8 = 256 from rfl, pow_succ',
        Nat.mod_mul]

theorem ofDigits_lt (l : List (BitVec 8)) : ofDigits l < 256 ^ l.length := by
  induction l with
  | nil => exact Nat.one_pos
  | cons b bs ih =>
      have hb : b.toNat < 256 := b.isLt
      rw [ofDigits, List.length_cons, pow_succ']
      omega

theorem digits_ofDigits (l : List (BitVec 8)) : digits l.length (ofDigits l) = l := by
  induction l with
  | nil => rfl
  | cons b bs ih =>
      have hb : b.toNat < 256 := b.isLt
      have hlow : BitVec.ofNat 8 (b.toNat + 256 * ofDigits bs) = b := by
        rw [← BitVec.toNat_inj, BitVec.toNat_ofNat]
        omega
      have hhigh : (b.toNat + 256 * ofDigits bs) / 256 = ofDigits bs := by omega
      rw [ofDigits, List.length_cons, digits, hlow, hhigh, ih]

/-- A number of `w` bits in `k` bytes, the lowest first. -/
def word (w k : ℕ) (h : w ≤ 8 * k) : Layout (BitVec w) where
  size := k
  bytes x := digits k x.toNat
  value l := BitVec.ofNat w (ofDigits l)
  length_bytes x := length_digits k x.toNat
  value_bytes x := by
    have hlt : x.toNat < 256 ^ k := by
      apply x.isLt.trans_le
      rw [show 256 = 2 ^ 8 from rfl, ← pow_mul]
      exact Nat.pow_le_pow_right Nat.two_pos h
    rw [ofDigits_digits, Nat.mod_eq_of_lt hlt, BitVec.ofNat_toNat, BitVec.setWidth_eq]

section Array

variable (L : Layout α)

theorem drop_flatMap (xs : List α) (i : ℕ) :
    (xs.flatMap L.bytes).drop (i * L.size) = (xs.drop i).flatMap L.bytes := by
  induction i generalizing xs with
  | zero => rw [Nat.zero_mul, List.drop_zero, List.drop_zero]
  | succ i ih =>
      cases xs with
      | nil => simp
      | cons x xs =>
          rw [List.flatMap_cons, Nat.succ_mul, Nat.add_comm, ← List.drop_drop,
            List.drop_left' (L.length_bytes x), ih, List.drop_succ_cons]

theorem length_flatMap (xs : List α) : (xs.flatMap L.bytes).length = xs.length * L.size := by
  induction xs with
  | nil => simp
  | cons x xs ih =>
      rw [List.flatMap_cons, List.length_append, L.length_bytes, ih, List.length_cons,
        Nat.succ_mul, Nat.add_comm]

/-- The elements one behind the other. -/
def array (n : ℕ) : Layout (Fin n → α) where
  size := n * L.size
  bytes f := (List.ofFn f).flatMap L.bytes
  value l i := L.value ((l.drop (i * L.size)).take L.size)
  length_bytes f := by rw [length_flatMap, List.length_ofFn]
  value_bytes f := by
    funext i
    have hi : (i : ℕ) < (List.ofFn f).length := by rw [List.length_ofFn]; exact i.isLt
    rw [drop_flatMap, List.drop_eq_getElem_cons hi, List.flatMap_cons,
      List.take_left' (L.length_bytes _), L.value_bytes, List.getElem_ofFn]

end Array

/-! ## Streams -/

/-- What is left of the file, and whether an operation has failed. -/
structure InStream where
  rest : List (BitVec 8)
  fail : Bool

/-- `out.write(&x, sizeof(x))`. -/
def write (L : Layout α) (x : α) (out : List (BitVec 8)) : List (BitVec 8) := out ++ L.bytes x

/-- `in.read(&x, sizeof(x))`. -/
def read (L : Layout α) (x : α) (s : InStream) : α × InStream :=
  if s.fail then (x, s)
  else
    let got := s.rest.take L.size
    (L.value (got ++ (L.bytes x).drop got.length),
      { rest := s.rest.drop L.size, fail := got.length < L.size })

/-- A read gets back what a write has put at the front. -/
theorem read_bytes (L : Layout α) (x y : α) (rest : List (BitVec 8)) :
    read L x ⟨L.bytes y ++ rest, false⟩ = (y, ⟨rest, false⟩) := by
  have hy := L.length_bytes y
  have hx := L.length_bytes x
  rw [read, if_neg Bool.false_ne_true]
  dsimp only
  rw [List.take_left' hy, List.drop_left' hy, hy, List.drop_of_length_le hx.le, List.append_nil,
    L.value_bytes, decide_eq_false (lt_irrefl _)]

end FavoriteAssignments.Layouts
