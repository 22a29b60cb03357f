import FavoriteAssignments.Library.Feistel
import Mathlib.Logic.Function.Basic
import Mathlib.Data.Nat.Notation
import Mathlib.Tactic.SplitIfs

/-! # The Simon cipher

`simon.c`. The memory of the caller is addressed by words; the round keys lie in a static
array of their own, which no caller can reach. -/

namespace FavoriteAssignments.SchmidtSamoa.Simon

/-- The words of an array, or of all memory, by index. -/
abbrev Words := ℕ → UInt64

def RL (x y : UInt64) : UInt64 := (x <<< y) ||| (x >>> (64 - y))

def RR (x y : UInt64) : UInt64 := (x >>> y) ||| (x <<< (64 - y))

/-! ## Round keys -/

def z : List UInt8 :=
  [1, 1, 0, 1, 0, 0, 0, 1, 1, 1, 1, 0, 0, 1, 1, 0, 1, 0, 1, 1, 0, 1, 1, 0, 0,
    0, 1, 0, 0, 0, 0, 0, 0, 1, 0, 1, 1, 1, 0, 0, 0, 0, 1, 1, 0, 0, 1, 0, 1, 0, 0, 1, 0, 0, 1, 1,
    1, 0, 1, 1, 1, 1]

/-- The loop of `simon_key_schedule`. -/
def scheduleLoop (i : UInt8) (rk : Words) : Words :=
  if i < 72 then
    let j := i.toNat
    let tmp := RR (rk (j - 1)) 3
    let tmp := tmp ^^^ rk (j - 3)
    let tmp := tmp ^^^ RR tmp 1
    scheduleLoop (i + 1) (Function.update rk j
      (~~~ rk (j - 4) ^^^ tmp ^^^ (z.getD ((j - 4) % 62) 0).toUInt64 ^^^ 3))
  else rk
termination_by 72 - i.toNat
decreasing_by
  have hi : i.toNat < 72 := UInt8.lt_iff_toNat_lt.mp ‹_›
  rw [UInt8.toNat_add, UInt8.toNat_one]
  omega

/-- The array `rk` after the call. -/
def simon_key_schedule (K rk : Words) : Words :=
  let rk := Function.update rk 0 (K 0)
  let rk := Function.update rk 1 (K 1)
  let rk := Function.update rk 2 (K 2)
  let rk := Function.update rk 3 (K 3)
  scheduleLoop 4 rk

/-! ## Blocks -/

/-- The assignments that begin both functions: two words from `src` to `dst`. -/
def copy (src dst : ℕ) (mem : Words) : Words :=
  let mem := Function.update mem dst (mem src)
  Function.update mem (dst + 1) (mem (src + 1))

/-- The loop of `simon_encrypt`. -/
def encryptLoop (rk : Words) (Ct : ℕ) (i : UInt8) (mem : Words) : Words :=
  if i < 72 then
    let tmp := mem (Ct + 1)
    let mem := Function.update mem (Ct + 1)
      (mem Ct ^^^ (RL (mem (Ct + 1)) 1 &&& RL (mem (Ct + 1)) 8) ^^^ RL (mem (Ct + 1)) 2 ^^^
        rk i.toNat)
    let mem := Function.update mem Ct tmp
    encryptLoop rk Ct (i + 1) mem
  else mem
termination_by 72 - i.toNat
decreasing_by
  have hi : i.toNat < 72 := UInt8.lt_iff_toNat_lt.mp ‹_›
  rw [UInt8.toNat_add, UInt8.toNat_one]
  omega

def simon_encrypt (rk : Words) (Pt Ct : ℕ) (mem : Words) : Words :=
  encryptLoop rk Ct 0 (copy Pt Ct mem)

theorem toInt_sub_one {i : Int8} (h : 0 ≤ i) : (i - 1).toInt = i.toInt - 1 := by
  have hi : 0 ≤ i.toInt := by simpa [Int8.le_iff_toInt_le] using h
  have hlt := i.toInt_lt
  rw [Int8.toInt_sub, Int8.toInt_one]
  exact Int.bmod_eq_of_le (by omega) (by omega)

/-- The loop of `simon_decrypt`, whose counter ends below zero. -/
def decryptLoop (rk : Words) (Pt : ℕ) (i : Int8) (mem : Words) : Words :=
  if 0 ≤ i then
    let tmp := mem Pt
    let mem := Function.update mem Pt
      (mem (Pt + 1) ^^^ (RL (mem Pt) 1 &&& RL (mem Pt) 8) ^^^ RL (mem Pt) 2 ^^^ rk i.toInt.toNat)
    let mem := Function.update mem (Pt + 1) tmp
    decryptLoop rk Pt (i - 1) mem
  else mem
termination_by (i.toInt + 1).toNat
decreasing_by
  have hi : 0 ≤ i.toInt := by simpa [Int8.le_iff_toInt_le] using ‹0 ≤ i›
  rw [toInt_sub_one ‹_›]
  omega

def simon_decrypt (rk : Words) (Ct Pt : ℕ) (mem : Words) : Words :=
  decryptLoop rk Pt 71 (copy Ct Pt mem)

/-! ## Rounds on a block -/

/-- The two words at `a`. -/
def block (mem : Words) (a : ℕ) : UInt64 × UInt64 := (mem a, mem (a + 1))

/-- Memory with the block `b` at `a`. -/
def setBlock (mem : Words) (a : ℕ) (b : UInt64 × UInt64) : Words :=
  Function.update (Function.update mem a b.1) (a + 1) b.2

@[simp] theorem block_setBlock (mem : Words) (a : ℕ) (b : UInt64 × UInt64) :
    block (setBlock mem a b) a = b := by
  simp [block, setBlock]

@[simp] theorem setBlock_setBlock (mem : Words) (a : ℕ) (b c : UInt64 × UInt64) :
    setBlock (setBlock mem a b) a c = setBlock mem a c := by
  funext k
  simp only [setBlock, Function.update_apply]
  split_ifs <;> rfl

@[simp] theorem setBlock_block (mem : Words) (a : ℕ) : setBlock mem a (block mem a) = mem := by
  simp [setBlock, block]

/-- Only where the copy begins with the second word of its source does it lose one. -/
theorem copy_eq (mem : Words) {src dst : ℕ} (h : dst ≠ src + 1) :
    copy src dst mem = setBlock mem dst (block mem src) := by
  simp [copy, setBlock, block, Function.update_of_ne h.symm]

/-- What both loops mix into a half: a function of the other half and of the round key. -/
def roundFunction (k x : UInt64) : UInt64 := (RL x 1 &&& RL x 8) ^^^ RL x 2 ^^^ k

/-- The round functions of the keys from `i` on. -/
def functions (rk : Words) (i count : ℕ) : List (UInt64 → UInt64) :=
  (List.range' i count).map fun j => roundFunction (rk j)

theorem encryptLoop_eq (rk : Words) (Ct : ℕ) {i : UInt8} {count : ℕ} (mem : Words)
    (hi : i.toNat + count = 72) :
    encryptLoop rk Ct i mem =
      setBlock mem Ct (Feistel.rounds (· ^^^ ·) (functions rk i.toNat count) (block mem Ct)) := by
  induction count generalizing i mem with
  | zero =>
      have hdone : ¬i < 72 := by
        rw [UInt8.lt_iff_toNat_lt]
        change ¬i.toNat < 72
        omega
      rw [encryptLoop, if_neg hdone]
      simp [functions]
  | succ count ih =>
      have hlt : i < 72 := UInt8.lt_iff_toNat_lt.mpr (by
        change i.toNat < 72
        omega)
      have hnext : (i + 1).toNat = i.toNat + 1 := by
        rw [UInt8.toNat_add, UInt8.toNat_one]
        omega
      rw [encryptLoop, if_pos hlt]
      simp only
      have hround : Function.update (Function.update mem (Ct + 1)
          (mem Ct ^^^ (RL (mem (Ct + 1)) 1 &&& RL (mem (Ct + 1)) 8) ^^^ RL (mem (Ct + 1)) 2 ^^^
            rk i.toNat)) Ct (mem (Ct + 1)) =
          setBlock mem Ct (Feistel.round (· ^^^ ·) (roundFunction (rk i.toNat)) (block mem Ct)) := by
        rw [Function.update_comm (by omega)]
        simp [setBlock, Feistel.round, block, roundFunction, UInt64.xor_assoc]
      rw [hround, ih _ (by omega), hnext]
      simp [functions, List.range'_succ]

theorem decryptLoop_eq (rk : Words) (Pt : ℕ) {i : Int8} {count : ℕ} (mem : Words)
    (hi : i.toInt + 1 = count) :
    decryptLoop rk Pt i mem =
      setBlock mem Pt (Feistel.unrounds (· ^^^ ·) (functions rk 0 count) (block mem Pt)) := by
  induction count generalizing i mem with
  | zero =>
      have hdone : ¬0 ≤ i := by
        rw [Int8.le_iff_toInt_le]
        simp only [Int8.toInt_zero]
        omega
      rw [decryptLoop, if_neg hdone]
      simp [functions]
  | succ count ih =>
      have hge : 0 ≤ i := by
        rw [Int8.le_iff_toInt_le]
        simp only [Int8.toInt_zero]
        omega
      have hindex : i.toInt.toNat = count := by omega
      rw [decryptLoop, if_pos hge]
      simp only
      have hround : Function.update (Function.update mem Pt
          (mem (Pt + 1) ^^^ (RL (mem Pt) 1 &&& RL (mem Pt) 8) ^^^ RL (mem Pt) 2 ^^^ rk count))
            (Pt + 1) (mem Pt) =
          setBlock mem Pt (Feistel.unround (· ^^^ ·) (roundFunction (rk count)) (block mem Pt)) := by
        simp [setBlock, Feistel.unround, block, roundFunction, UInt64.xor_assoc]
      rw [hindex, hround, ih _ (by rw [toInt_sub_one hge]; omega)]
      simp [functions, List.range'_concat, Feistel.unrounds_concat]

theorem simon_encrypt_eq (rk : Words) {Pt Ct : ℕ} (mem : Words) (h : Ct ≠ Pt + 1) :
    simon_encrypt rk Pt Ct mem =
      setBlock mem Ct (Feistel.rounds (· ^^^ ·) (functions rk 0 72) (block mem Pt)) := by
  have hcount : (0 : UInt8).toNat + 72 = 72 := rfl
  rw [simon_encrypt, encryptLoop_eq rk Ct _ hcount, copy_eq mem h]
  simp

theorem simon_decrypt_eq (rk : Words) {Ct Pt : ℕ} (mem : Words) (h : Pt ≠ Ct + 1) :
    simon_decrypt rk Ct Pt mem =
      setBlock mem Pt (Feistel.unrounds (· ^^^ ·) (functions rk 0 72) (block mem Ct)) := by
  have hcount : (71 : Int8).toInt + 1 = (72 : ℕ) := rfl
  rw [simon_decrypt, decryptLoop_eq rk Pt _ hcount, copy_eq mem h]
  simp

/-- Neither function writes outside its destination. -/
theorem simon_frame (rk : Words) {src dst : ℕ} (mem : Words) (h : dst ≠ src + 1) {k : ℕ}
    (hk : k ≠ dst ∧ k ≠ dst + 1) :
    simon_encrypt rk src dst mem k = mem k ∧ simon_decrypt rk src dst mem k = mem k := by
  rw [simon_encrypt_eq rk mem h, simon_decrypt_eq rk mem h]
  simp [setBlock, Function.update_of_ne hk.1, Function.update_of_ne hk.2]

/-- Each function undoes the other for every key, whether the arrays are the same or apart. -/
theorem simon_inversion (K rk mem : Words) {src mid dst : ℕ} (hmid : mid ≠ src + 1)
    (hdst : dst ≠ mid + 1) :
    block (simon_decrypt (simon_key_schedule K rk) mid dst
      (simon_encrypt (simon_key_schedule K rk) src mid mem)) dst = block mem src ∧
    block (simon_encrypt (simon_key_schedule K rk) mid dst
      (simon_decrypt (simon_key_schedule K rk) src mid mem)) dst = block mem src := by
  have hxor : ∀ x y : UInt64, x ^^^ y ^^^ y = x := fun x y => by
    rw [UInt64.xor_assoc, UInt64.xor_self, UInt64.xor_zero]
  rw [simon_encrypt_eq _ mem hmid, simon_decrypt_eq _ _ hdst, simon_decrypt_eq _ mem hmid,
    simon_encrypt_eq _ _ hdst]
  simp only [block_setBlock]
  exact ⟨Feistel.unrounds_rounds hxor _ _, Feistel.rounds_unrounds hxor _ _⟩

/-- In place, and with the keys of an array of zeros. -/
theorem simon_inversion_in_place :
    block (simon_decrypt (simon_key_schedule (fun _ => 0) fun _ => 0) 0 0
      (simon_encrypt (simon_key_schedule (fun _ => 0) fun _ => 0) 0 0 fun _ => 7)) 0 = (7, 7) ∧
    block (simon_encrypt (simon_key_schedule (fun _ => 0) fun _ => 0) 0 0
      (simon_decrypt (simon_key_schedule (fun _ => 0) fun _ => 0) 0 0 fun _ => 7)) 0 = (7, 7) :=
  simon_inversion (fun _ => 0) (fun _ => 0) (fun _ => 7) (show 0 ≠ 0 + 1 by decide)
    (show 0 ≠ 0 + 1 by decide)

end FavoriteAssignments.SchmidtSamoa.Simon
