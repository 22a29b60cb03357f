import FavoriteAssignments.Lz78.Loops

/-! # Pairs through a file

Any pairs with any widths, written after each other, flushed, and read back with the same
widths. The symbols always return; a code returns if its bits have the places that the
writer looks at. -/

namespace FavoriteAssignments.Lz78

open Bits

/-- What successive calls of `read_pair` return. -/
def read_pairs (big_endian : Bool) (r : BitReader) : List ℕ → List (ℕ × UInt8 × Bool)
  | [] => []
  | bitlen :: widths =>
      let got := read_pair big_endian r bitlen
      got.2 :: read_pairs big_endian got.1 widths

/-- The file of some pairs and a stop pair of width `stop`. -/
def pairFile (pairs : List Pair) (stop : ℕ) : List UInt8 :=
  flush_pairs (write_pair (write_pairs ⟨[], fun _ => 0, 0, 0⟩ pairs) STOP_CODE 0 stop)

/-- A reader of the file gets every pair, and then the end. -/
def StreamReturns (big_endian : Bool) (buf : Buffer) (pairs : List Pair) (stop : ℕ) : Prop :=
  ∃ last, last.2.2 = false ∧
    read_pairs big_endian ⟨pairFile pairs stop, buf, 0, 0⟩ (pairs.map (·.bitlen) ++ [stop]) =
      pairs.map (fun pair => (pair.code, pair.sym, true)) ++ [last]

/-- On a big-endian machine a code returns if its two bytes are equal, on the others if the
bits from the ninth on repeat those from the first on. -/
def Returns (big_endian : Bool) (pair : Pair) : Prop :=
  if big_endian = true then pair.code / 256 = pair.code % 256 else Survives pair.bitlen pair.code

instance (big_endian : Bool) (pair : Pair) : Decidable (Returns big_endian pair) :=
  inferInstanceAs (Decidable (if big_endian = true then pair.code / 256 = pair.code % 256
    else Survives pair.bitlen pair.code))

/-! ## Bytes exchanged -/

theorem testBit_swap16 (x i : ℕ) :
    (swap16 x).testBit i =
      if i < 8 then x.testBit (i + 8) else decide (i < 16) && x.testBit (i - 8) := by
  have hlow : ∀ j, (0x00FF).testBit j = decide (j < 8) := Nat.testBit_two_pow_sub_one 8
  have hhigh : ∀ j, (0xFF00).testBit j = (decide (8 ≤ j) && decide (j - 8 < 8)) := by
    intro j
    rw [show (0xFF00 : ℕ) = 0x00FF <<< 8 by rfl, Nat.testBit_shiftLeft, hlow]
  simp only [swap16, Nat.testBit_or, Nat.testBit_shiftLeft, Nat.testBit_shiftRight, Nat.testBit_and,
    hlow, hhigh]
  split_ifs with hi
  · simp [show ¬8 ≤ i by omega, hi, Nat.add_comm]
  · have hle : 8 ≤ i := by omega
    by_cases hlt : i < 16
    · simp [hle, hlt, show i - 8 < 8 by omega]
    · simp [hle, hlt, show ¬i - 8 < 8 by omega]

/-- A code is read as written on a big-endian machine exactly if its bytes are equal. -/
theorem swap16_spread_eq_iff {width code : ℕ} (hwidth : width ≤ 16) (hcode : code < 2 ^ width) :
    swap16 (spread width code) = code ↔ code / 256 = code % 256 := by
  have hhigh : ∀ i, width ≤ i → code.testBit i = false := fun i hi =>
    Nat.testBit_lt_two_pow (Nat.lt_of_lt_of_le hcode (Nat.pow_le_pow_right (by decide) hi))
  have hdiv : ∀ i, (code / 256).testBit i = code.testBit (i + 8) := fun i =>
    Nat.testBit_div_two_pow (n := 8) code i
  have hmod : ∀ i, (code % 256).testBit i = (decide (i < 8) && code.testBit i) := fun i =>
    Nat.testBit_mod_two_pow code 8 i
  have hbytes : code / 256 = code % 256 ↔ ∀ i < 8, code.testBit (i + 8) = code.testBit i := by
    constructor
    · intro heq i hi
      rw [← hdiv, heq, hmod]
      simp [hi]
    · intro heq
      refine Nat.eq_of_testBit_eq fun i => ?_
      rw [hdiv, hmod]
      by_cases hi : i < 8
      · simp [hi, heq i hi]
      · simp [hi, hhigh (i + 8) (by omega)]
  rw [hbytes]
  constructor
  · intro hswap i hi
    have hbit := testBit_swap16 (spread width code) i
    rw [hswap, if_pos hi, testBit_spread, Nat.add_mod_right, Nat.mod_eq_of_lt hi] at hbit
    rw [hbit]
    by_cases hlt : i + 8 < width
    · have hupper := testBit_swap16 (spread width code) (i + 8)
      rw [hswap, if_neg (by omega), testBit_spread, Nat.add_sub_cancel,
        Nat.mod_eq_of_lt hi] at hupper
      rw [hupper]
      simp [hlt, show i < width by omega, show i + 8 < 16 by omega]
    · simp [hlt, hhigh (i + 8) (by omega)]
  · intro heq
    refine Nat.eq_of_testBit_eq fun i => ?_
    rw [testBit_swap16]
    split_ifs with hi
    · rw [testBit_spread, Nat.add_mod_right, Nat.mod_eq_of_lt hi]
      by_cases hlt : i + 8 < width
      · simp [hlt]
      · simp [hlt, ← heq i hi, hhigh (i + 8) (by omega)]
    · by_cases hlt : i < 16
      · obtain ⟨j, rfl⟩ : ∃ j, i = j + 8 := ⟨i - 8, by omega⟩
        rw [testBit_spread, Nat.add_sub_cancel, Nat.mod_eq_of_lt (by omega), heq j (by omega)]
        by_cases hj : j < width
        · simp [hj, hlt]
        · simp [hj, hhigh j (by omega)]
      · simp [hlt, hhigh i (by omega)]

theorem seen_eq_iff {big_endian : Bool} {pair : Pair} (hwidth : pair.bitlen ≤ 16)
    (hcode : pair.code < 2 ^ pair.bitlen) :
    seen big_endian pair.bitlen pair.code = pair.code ↔ Returns big_endian pair := by
  cases big_endian with
  | true => exact swap16_spread_eq_iff hwidth hcode
  | false => exact spread_eq_iff hwidth hcode

/-! ## Reading back -/

/-- What is read of pairs that were written, up to what follows them. -/
theorem read_pairs_eq (big_endian : Bool) {pairs : List Pair} {r : BitReader} {bits : List Bool}
    (hwidth : ∀ pair ∈ pairs, pair.bitlen ≤ 16) (h : Ahead r (pairsBits pairs ++ bits))
    (widths : List ℕ) :
    ∃ r', Ahead r' bits ∧
      read_pairs big_endian r (pairs.map (·.bitlen) ++ widths) =
        pairs.map (fun pair => (seen big_endian pair.bitlen pair.code, pair.sym,
          decide (seen big_endian pair.bitlen pair.code ≠ STOP_CODE))) ++
          read_pairs big_endian r' widths := by
  induction pairs generalizing r with
  | nil => exact ⟨r, h, rfl⟩
  | cons pair pairs ih =>
      rw [pairsBits_cons, List.append_assoc] at h
      obtain ⟨r', hrest, hread⟩ := read_pair_eq big_endian (hwidth pair List.mem_cons_self) h
      obtain ⟨r'', hlast, hreads⟩ := ih (fun p hp => hwidth p (List.mem_cons_of_mem _ hp)) hrest
      refine ⟨r'', hlast, ?_⟩
      simp only [List.map_cons, List.cons_append, read_pairs, hread, hreads]

/-- The file holds the pairs and enough zeros for the code of the stop pair. -/
theorem pairFile_bits (pairs : List Pair) (stop : ℕ) :
    ∃ n, ofBytes (pairFile pairs stop) = pairsBits pairs ++ List.replicate (stop + n) false := by
  obtain ⟨body, rest, hfile, hbits, hrest⟩ :=
    (((Written.start [] 0).write_pairs pairs).write_pair stop STOP_CODE 0).flush_pairs
  have hlt : rest.length < 8 := by
    rw [hrest]
    exact Nat.mod_lt _ (by decide)
  rw [List.nil_append] at hfile
  rw [List.nil_append, pairBits_stop] at hbits
  have hzeros : stop + 8 - rest.length = stop + (8 - rest.length) := by omega
  refine ⟨8 - rest.length, ?_⟩
  rw [pairFile, hfile, front_of_append_replicate hbits (by omega), hzeros]

/-- What is read of the file of some pairs. -/
theorem read_pairFile (big_endian : Bool) (buf : Buffer) {pairs : List Pair} (stop : ℕ)
    (hwidth : ∀ pair ∈ pairs, pair.bitlen ≤ 16) :
    ∃ last, last.2.2 = false ∧
      read_pairs big_endian ⟨pairFile pairs stop, buf, 0, 0⟩ (pairs.map (·.bitlen) ++ [stop]) =
        pairs.map (fun pair => (seen big_endian pair.bitlen pair.code, pair.sym,
          decide (seen big_endian pair.bitlen pair.code ≠ STOP_CODE))) ++ [last] := by
  obtain ⟨n, hbits⟩ := pairFile_bits pairs stop
  rw [List.replicate_add] at hbits
  obtain ⟨r, hrest, hread⟩ := read_pairs_eq big_endian (r := ⟨pairFile pairs stop, buf, 0, 0⟩)
    hwidth (Or.inl ⟨rfl, hbits.symm⟩) [stop]
  exact ⟨(read_pair big_endian r stop).2, read_pair_stop big_endian hrest, hread⟩

theorem StreamReturns.seen {big_endian : Bool} {buf : Buffer} {pairs : List Pair} {stop : ℕ}
    (h : StreamReturns big_endian buf pairs stop) (hwidth : ∀ pair ∈ pairs, pair.bitlen ≤ 16) :
    ∀ pair ∈ pairs, seen big_endian pair.bitlen pair.code = pair.code := by
  obtain ⟨last, -, heq⟩ := h
  obtain ⟨last', -, hread⟩ := read_pairFile big_endian buf stop hwidth
  intro pair hpair
  exact (Prod.mk.inj
    (List.map_inj_left.mp (List.append_inj_left' (hread.symm.trans heq) rfl) pair hpair)).1

/-- A stream returns exactly if each of its codes does. -/
theorem stream_returns_iff (big_endian : Bool) (buf : Buffer) {pairs : List Pair} (stop : ℕ)
    (hpairs : ∀ pair ∈ pairs, pair.bitlen ≤ 16 ∧ 0 < pair.code ∧ pair.code < 2 ^ pair.bitlen) :
    StreamReturns big_endian buf pairs stop ↔ ∀ pair ∈ pairs, Returns big_endian pair := by
  have hwidth : ∀ pair ∈ pairs, pair.bitlen ≤ 16 := fun pair hpair => (hpairs pair hpair).1
  have hcodes : (∀ pair ∈ pairs, Lz78.seen big_endian pair.bitlen pair.code = pair.code) ↔
      ∀ pair ∈ pairs, Returns big_endian pair :=
    forall₂_congr fun pair hpair => seen_eq_iff (hwidth pair hpair) (hpairs pair hpair).2.2
  rw [← hcodes]
  refine ⟨fun h => h.seen hwidth, fun h => ?_⟩
  obtain ⟨last, hlast, hread⟩ := read_pairFile big_endian buf stop hwidth
  refine ⟨last, hlast, hread.trans ?_⟩
  congr 1
  refine List.map_congr_left fun pair hpair => ?_
  have hne : pair.code ≠ STOP_CODE := (hpairs pair hpair).2.1.ne'
  rw [h pair hpair, decide_eq_true hne]

/-- Codes of two and of nine bits. -/
theorem stream_returns_two : StreamReturns false (fun _ => 0) [⟨1, 97, 2⟩, ⟨257, 98, 9⟩] 10 ∧
    StreamReturns true (fun _ => 0) [⟨257, 98, 9⟩] 10 := by
  constructor
  · exact (stream_returns_iff false _ 10 (by decide)).mpr (by decide)
  · exact (stream_returns_iff true _ 10 (by decide)).mpr (by decide)

/-- The ninth bit of the code 256 is lost, and a big-endian machine loses the code 1. -/
theorem stream_code_lost : ¬StreamReturns false (fun _ => 0) [⟨256, 97, 9⟩] 10 ∧
    ¬StreamReturns true (fun _ => 0) [⟨1, 97, 2⟩] 10 := by
  constructor
  · intro h
    exact absurd (h.seen (by decide) _ List.mem_cons_self) (by decide)
  · intro h
    exact absurd (h.seen (by decide) _ List.mem_cons_self) (by decide)

end FavoriteAssignments.Lz78
