import Mathlib.Data.List.Nodup
import Mathlib.Data.Nat.Bitwise

/-! # Bits of bytes

Bytes and numbers as lists of bits, least significant first, and arrays of bytes
addressed by bit. -/

namespace FavoriteAssignments.Bits

/-! ## Numbers -/

def value : List Bool → ℕ
  | [] => 0
  | b :: bits => b.toNat + 2 * value bits

theorem testBit_value (bits : List Bool) (i : ℕ) :
    (value bits).testBit i = bits[i]?.getD false := by
  induction bits generalizing i with
  | nil => simp [value]
  | cons b bits ih =>
      cases i with
      | zero => cases b <;> simp [value, Nat.testBit_zero]
      | succ i =>
          have hdiv : (b.toNat + 2 * value bits) / 2 = value bits := by
            cases b with
            | false => simp
            | true =>
                simp only [Bool.toNat_true]
                omega
          rw [Nat.testBit_succ, value, hdiv, ih]
          simp

theorem value_lt (bits : List Bool) : value bits < 2 ^ bits.length := by
  induction bits with
  | nil => simp [value]
  | cons b bits ih =>
      have hb : b.toNat ≤ 1 := by cases b <;> simp
      rw [value, List.length_cons, Nat.pow_succ]
      omega

theorem value_testBits (n x : ℕ) (h : x < 2 ^ n) :
    value ((List.range n).map x.testBit) = x := by
  apply Nat.eq_of_testBit_eq
  intro i
  rw [testBit_value]
  by_cases hi : i < n
  · simp [hi]
  · have hx : x.testBit i = false :=
      Nat.testBit_lt_two_pow (Nat.lt_of_lt_of_le h (Nat.pow_le_pow_right (by decide) (by omega)))
    simp [hi, hx]

theorem value_eq_zero {bits : List Bool} : value bits = 0 ↔ ∀ b ∈ bits, b = false := by
  induction bits with
  | nil => simp [value]
  | cons b bits ih => cases b <;> simp [value, ih]

/-- One more bit at the top. -/
theorem value_concat (bits : List Bool) (b : Bool) :
    value (bits ++ [b]) = value bits ||| b.toNat <<< bits.length := by
  apply Nat.eq_of_testBit_eq
  intro i
  rw [Nat.testBit_or, Nat.testBit_shiftLeft, testBit_value, testBit_value]
  rcases Nat.lt_trichotomy i bits.length with hlt | rfl | hgt
  · simp [List.getElem?_append_left hlt, Nat.not_le.mpr hlt]
  · cases b <;> simp
  · have hpos : i - bits.length ≠ 0 := by omega
    have htop : b.toNat.testBit (i - bits.length) = false := by
      cases b with
      | false => simp
      | true =>
          exact Bool.eq_false_iff.mpr fun h =>
            hpos (Nat.testBit_one_eq_true_iff_self_eq_zero.mp h)
    rw [List.getElem?_eq_none (by simp; omega), List.getElem?_eq_none (by omega), htop]
    simp

theorem shiftRight_and_one (x k : ℕ) : x >>> k &&& 1 = (x.testBit k).toNat := by
  rw [Nat.and_one_is_mod, Nat.shiftRight_eq_div_pow, Nat.toNat_testBit]

/-! ## Bytes -/

def ofByte (b : UInt8) : List Bool := (List.range 8).map b.toNat.testBit

def ofBytes (bytes : List UInt8) : List Bool := bytes.flatMap ofByte

theorem ofBytes_append (bytes bytes' : List UInt8) :
    ofBytes (bytes ++ bytes') = ofBytes bytes ++ ofBytes bytes' := by
  simp [ofBytes]

theorem length_ofBytes (bytes : List UInt8) : (ofBytes bytes).length = 8 * bytes.length := by
  induction bytes with
  | nil => rfl
  | cons b bytes ih =>
      rw [ofBytes, List.flatMap_cons, List.length_append, ← ofBytes, ih]
      simp [ofByte]
      omega

theorem value_ofByte (b : UInt8) : UInt8.ofNat (value (ofByte b)) = b := by
  rw [ofByte, value_testBits 8 _ b.toNat_lt]
  exact UInt8.ofNat_toNat

theorem ofNat_inj {a b : ℕ} (ha : a < 256) (hb : b < 256) (h : UInt8.ofNat a = UInt8.ofNat b) :
    a = b := by
  have hval := congrArg UInt8.toNat h
  rwa [UInt8.toNat_ofNat_of_lt' ha, UInt8.toNat_ofNat_of_lt' hb] at hval

theorem nodup_bytes {n : ℕ} (hn : n ≤ 256) : ((List.range n).map UInt8.ofNat).Nodup := by
  refine List.Nodup.map_on ?_ List.nodup_range
  intro a ha b hb heq
  exact ofNat_inj (Nat.lt_of_lt_of_le (List.mem_range.mp ha) hn)
    (Nat.lt_of_lt_of_le (List.mem_range.mp hb) hn) heq

/-! ## Padding -/

theorem front_of_append_replicate {α : Type*} {a b c : List α} {x : α} {n : ℕ}
    (h : a ++ List.replicate n x = b ++ c) (hc : c.length ≤ n) :
    b = a ++ List.replicate (n - c.length) x := by
  have hsplit : List.replicate n x =
      List.replicate (n - c.length) x ++ List.replicate c.length x := by
    rw [List.replicate_append_replicate, Nat.sub_add_cancel hc]
  rw [hsplit, ← List.append_assoc] at h
  exact (List.append_inj_left' h (by simp)).symm

/-! ## Arrays of bytes -/

/-- Bit `i` of an array, `i % 8` of byte `i / 8`. -/
def bitAt (buf : ℕ → UInt8) (i : ℕ) : Bool := (buf (i / 8)).toNat.testBit (i % 8)

theorem ofBytes_map_range (buf : ℕ → UInt8) (n : ℕ) :
    ofBytes ((List.range n).map buf) = (List.range (8 * n)).map (bitAt buf) := by
  induction n with
  | zero => rfl
  | succ n ih =>
      rw [List.range_succ, List.map_append, ofBytes_append, ih, Nat.mul_succ, List.range_add,
        List.map_append, List.map_map]
      congr 1
      simp only [ofBytes, List.map_cons, List.map_nil, List.flatMap_cons, List.flatMap_nil,
        List.append_nil, ofByte]
      apply List.map_congr_left
      intro i hi
      have hlt := List.mem_range.mp hi
      simp only [Function.comp_apply, bitAt]
      rw [show (8 * n + i) / 8 = n by omega, show (8 * n + i) % 8 = i by omega]

/-- Setting bit `k` of an array. -/
theorem bitAt_update (buf : ℕ → UInt8) (k j : ℕ) :
    bitAt (Function.update buf (k / 8)
      (UInt8.ofNat ((buf (k / 8)).toNat ||| 1 <<< (k % 8)))) j =
      (bitAt buf j || decide (j = k)) := by
  have hbyte : (buf (k / 8)).toNat ||| 1 <<< (k % 8) < 2 ^ 8 := by
    refine Nat.or_lt_two_pow (buf (k / 8)).toNat_lt ?_
    rw [Nat.one_shiftLeft]
    exact Nat.pow_lt_pow_right (by decide) (Nat.mod_lt _ (by decide))
  unfold bitAt
  by_cases hbytes : j / 8 = k / 8
  · rw [hbytes, Function.update_self, UInt8.toNat_ofNat_of_lt' hbyte, Nat.testBit_or,
      Nat.one_shiftLeft, Nat.testBit_two_pow]
    congr 1
    rw [decide_eq_decide]
    omega
  · have hjk : j ≠ k := by
      rintro rfl
      exact hbytes rfl
    rw [Function.update_of_ne hbytes]
    simp [hjk]

end FavoriteAssignments.Bits
