import FavoriteAssignments.Library.Layout

/-! # Records

Objects that lie one behind the other are one object, also for a stream that ends inside them. A
layout may read more bytes than it writes; where it settles every byte on its own, an object
keeps its value exactly when the bytes that are read over it settle to its own. -/

namespace FavoriteAssignments.Layouts

variable {α β : Type*}

/-! ## Reads at the end of the stream -/

section Reads

variable (L : Layout α) (x : α) {rest : List (BitVec 8)}

theorem read_of_le (h : L.size ≤ rest.length) :
    read L x ⟨rest, false⟩ = (L.value (rest.take L.size), ⟨rest.drop L.size, false⟩) := by
  have htake : (rest.take L.size).length = L.size := List.length_take_of_le h
  rw [read, if_neg Bool.false_ne_true]
  dsimp only
  rw [htake, List.drop_of_length_le (L.length_bytes x).le, List.append_nil,
    decide_eq_false (lt_irrefl _)]

/-- The last bytes of the object stay. -/
theorem read_of_lt (h : rest.length < L.size) :
    read L x ⟨rest, false⟩ = (L.value (rest ++ (L.bytes x).drop rest.length), ⟨[], true⟩) := by
  rw [read, if_neg Bool.false_ne_true]
  dsimp only
  rw [List.take_of_length_le h.le, List.drop_of_length_le h.le, decide_eq_true h]

end Reads

/-! ## Pairs -/

section Pairs

variable (L : Layout α) (M : Layout β)

/-- Two objects, one behind the other. -/
def pair : Layout (α × β) where
  size := L.size + M.size
  bytes x := L.bytes x.1 ++ M.bytes x.2
  value l := (L.value (l.take L.size), M.value (l.drop L.size))
  length_bytes x := by rw [List.length_append, L.length_bytes, M.length_bytes]
  value_bytes x := by
    rw [List.take_left' (L.length_bytes _), List.drop_left' (L.length_bytes _), L.value_bytes,
      M.value_bytes]

/-- Two reads are one read of the pair, wherever the stream ends. -/
theorem read_pair (x : α) (y : β) (s : InStream) :
    read (pair L M) (x, y) s =
      (((read L x s).1, (read M y (read L x s).2).1), (read M y (read L x s).2).2) := by
  obtain ⟨rest, fail⟩ := s
  have hx := L.length_bytes x
  cases fail with
  | true => rfl
  | false =>
      -- The stream ends inside the first object, inside the second, or behind both.
      by_cases hfirst : rest.length < L.size
      · have hpair : rest.length < (pair L M).size := Nat.lt_add_right _ hfirst
        have hlen : (rest ++ (L.bytes x).drop rest.length).length = L.size := by
          rw [List.length_append, List.length_drop]
          omega
        have hdrop : (L.bytes x ++ M.bytes y).drop rest.length =
            (L.bytes x).drop rest.length ++ M.bytes y :=
          List.drop_append_of_le_length (by omega)
        rw [read_of_lt _ _ hpair, read_of_lt _ _ hfirst]
        simp only [pair, hdrop]
        rw [← List.append_assoc, List.take_left' hlen, List.drop_left' hlen, M.value_bytes]
        rfl
      · have hle : L.size ≤ rest.length := Nat.le_of_not_lt hfirst
        have hrest : (rest.drop L.size).length = rest.length - L.size := List.length_drop
        rw [read_of_le L x hle]
        by_cases hsecond : rest.length < L.size + M.size
        · have hdrop : (L.bytes x ++ M.bytes y).drop rest.length =
              (M.bytes y).drop (rest.drop L.size).length := by
            rw [List.drop_append, List.drop_of_length_le (by omega), List.nil_append, hrest, hx]
          rw [read_of_lt (pair L M) _ hsecond, read_of_lt M y (by omega)]
          simp only [pair, hdrop]
          rw [List.take_append_of_le_length hle, List.drop_append_of_le_length hle]
        · have hpair : (pair L M).size ≤ rest.length := Nat.le_of_not_lt hsecond
          rw [read_of_le (pair L M) _ hpair, read_of_le M y (by omega)]
          simp only [pair]
          rw [List.take_take, Nat.min_eq_left (Nat.le_add_right _ _), List.drop_take,
            Nat.add_sub_cancel_left, List.drop_drop]

end Pairs

/-! ## Bytes that are read and written back -/

/-- What a write puts back for each byte of an object that was read. -/
structure Settles (L : Layout α) where
  byteAt : ℕ → BitVec 8 → BitVec 8
  bytes_value : ∀ l, l.length = L.size → L.bytes (L.value l) = l.mapIdx byteAt

namespace Settles

section Reads

variable {L : Layout α} (c : Settles L)

theorem mapIdx_bytes (x : α) : (L.bytes x).mapIdx c.byteAt = L.bytes x := by
  rw [← c.bytes_value _ (L.length_bytes x), L.value_bytes]

theorem value_eq_iff {l : List (BitVec 8)} (hl : l.length = L.size) (x : α) :
    L.value l = x ↔ l.mapIdx c.byteAt = L.bytes x := by
  rw [← c.bytes_value l hl]
  constructor
  · intro h
    rw [h]
  · intro h
    rw [← L.value_bytes (L.value l), h, L.value_bytes]

/-- The bytes behind the first `k` are settled in their places. -/
theorem mapIdx_drop_bytes (x : α) (k : ℕ) (hk : k ≤ L.size) :
    ((L.bytes x).drop k).mapIdx (fun i => c.byteAt (i + k)) = (L.bytes x).drop k := by
  have hlen : ((L.bytes x).take k).length = k :=
    List.length_take_of_le (hk.trans (L.length_bytes x).ge)
  have hmap := c.mapIdx_bytes x
  rw [← List.take_append_drop k (L.bytes x), List.mapIdx_append, hlen] at hmap
  exact (List.append_inj hmap List.length_mapIdx).2

/-- A short read keeps the object exactly when its bytes settle to the first of the object. -/
theorem read_eq_iff (x : α) {file : List (BitVec 8)} (hfile : file.length < L.size) :
    (read L x ⟨file, false⟩).1 = x ↔ file.mapIdx c.byteAt <+: L.bytes x := by
  have hlen : (file ++ (L.bytes x).drop file.length).length = L.size := by
    rw [List.length_append, List.length_drop, L.length_bytes]
    omega
  rw [read_of_lt L x hfile, c.value_eq_iff hlen, List.mapIdx_append,
    c.mapIdx_drop_bytes x _ hfile.le, List.prefix_iff_eq_append, List.length_mapIdx]

end Reads

/-! ### Layouts -/

theorem mapIdx_self (l : List (BitVec 8)) : l.mapIdx (fun _ b => b) = l := by
  induction l with
  | nil => rfl
  | cons b l ih => rw [List.mapIdx_cons, ih]

def byte : Settles byte where
  byteAt _ b := b
  bytes_value l hl := by
    obtain ⟨b, rfl⟩ := List.length_eq_one_iff.mp hl
    rfl

/-- Any byte but zero is read as a flag that is set. -/
def flag : Settles flag where
  byteAt _ b := if b = 0 then 0 else 1
  bytes_value l hl := by
    obtain ⟨b, rfl⟩ := List.length_eq_one_iff.mp hl
    by_cases hb : b = 0
    · rw [hb]
      rfl
    · have hset : Layouts.flag.value [b] = true := decide_eq_true hb
      rw [hset, List.mapIdx_singleton, if_neg hb]
      rfl

/-- Words that fill their bytes are read as they are. -/
def word (w k : ℕ) (h : w = 8 * k) : Settles (word w k h.le) where
  byteAt _ b := b
  bytes_value l hl := by
    subst h
    have hlen : l.length = k := hl
    have hlt : ofDigits l < 2 ^ (8 * k) := by
      rw [pow_mul, ← hlen]
      exact ofDigits_lt l
    change digits k (BitVec.ofNat (8 * k) (ofDigits l)).toNat = _
    rw [BitVec.toNat_ofNat, Nat.mod_eq_of_lt hlt, ← hlen, digits_ofDigits, mapIdx_self]

section Composites

variable {L : Layout α} {M : Layout β}

/-- The front of a list and what is behind it are settled apart. -/
theorem mapIdx_split (f g h : ℕ → BitVec 8 → BitVec 8) (l : List (BitVec 8)) (k : ℕ)
    (hk : k ≤ l.length) (hf : ∀ i < k, ∀ b, h i b = f i b) (hg : ∀ i b, h (i + k) b = g i b) :
    l.mapIdx h = (l.take k).mapIdx f ++ (l.drop k).mapIdx g := by
  have hlen : (l.take k).length = k := List.length_take_of_le hk
  have hfront : (l.take k).mapIdx h = (l.take k).mapIdx f :=
    List.mapIdx_eq_mapIdx_iff.mpr fun i hi => hf i (hlen ▸ hi) _
  have hback : (fun i => h (i + k)) = g := by
    funext i b
    exact hg i b
  conv_lhs => rw [← List.take_append_drop k l, List.mapIdx_append, hlen, hfront, hback]

def pair (c : Settles L) (d : Settles M) : Settles (pair L M) where
  byteAt i b := if i < L.size then c.byteAt i b else d.byteAt (i - L.size) b
  bytes_value l hl := by
    have hlen : l.length = L.size + M.size := hl
    have hfront : (l.take L.size).length = L.size := List.length_take_of_le (by omega)
    have hback : (l.drop L.size).length = M.size := by
      rw [List.length_drop]
      omega
    change L.bytes (L.value (l.take L.size)) ++ M.bytes (M.value (l.drop L.size)) = _
    rw [c.bytes_value _ hfront, d.bytes_value _ hback]
    symm
    apply mapIdx_split _ _ _ _ _ (by omega)
    · intro i hi b
      exact if_pos hi
    · intro i b
      rw [if_neg (by omega), Nat.add_sub_cancel]

def array (c : Settles L) (n : ℕ) : Settles (array L n) where
  byteAt i b := c.byteAt (i % L.size) b
  bytes_value l hl := by
    induction n generalizing l with
    | zero =>
        have hnil : l = [] := List.eq_nil_of_length_eq_zero (hl.trans (Nat.zero_mul _))
        rw [hnil]
        rfl
    | succ n ih =>
        have hlen : l.length = n * L.size + L.size := hl.trans (Nat.succ_mul _ _)
        have hfront : (l.take L.size).length = L.size := List.length_take_of_le (by omega)
        have hback : (l.drop L.size).length = n * L.size := by
          rw [List.length_drop]
          omega
        have hcons : (Layouts.array L (n + 1)).bytes ((Layouts.array L (n + 1)).value l) =
            L.bytes (L.value (l.take L.size)) ++
              (Layouts.array L n).bytes ((Layouts.array L n).value (l.drop L.size)) := by
          simp only [Layouts.array, List.ofFn_succ, List.flatMap_cons, Fin.val_zero, Nat.zero_mul,
            List.drop_zero, Fin.val_succ, List.drop_drop, Nat.succ_mul, Nat.add_comm L.size]
        rw [hcons, c.bytes_value _ hfront, ih _ hback]
        symm
        apply mapIdx_split _ _ _ _ _ (by omega)
        · intro i hi b
          rw [Nat.mod_eq_of_lt hi]
        · intro i b
          rw [Nat.add_mod_right]

end Composites

end Settles

end FavoriteAssignments.Layouts
