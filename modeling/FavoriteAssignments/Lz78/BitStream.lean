import FavoriteAssignments.Library.Bits
import FavoriteAssignments.Lz78.Io
import Mathlib.Data.List.Induction

/-! # The bit stream

What the block buffers hold is a list of bits: `write_pair` appends to it, `flush_pairs`
leaves out an incomplete byte, `read_pair` takes from its front. -/

namespace FavoriteAssignments.Lz78

open Bits

/-! ## Blocks of a file -/

theorem store_nil (buf : Buffer) (offset : ℕ) : buf.store offset [] = buf := by
  funext i
  simp [Buffer.store]

theorem read_bytes_eq (infile : List UInt8) (buf : Buffer) {n : ℕ} (hn : 0 < n) :
    read_bytes infile buf n =
      ((infile.take n).length, buf.store 0 (infile.take n), infile.drop n) := by
  unfold read_bytes
  rw [readLoop, if_neg (by omega)]
  by_cases hnil : infile.take n = []
  · have hinfile : infile = [] := by
      rcases List.take_eq_nil_iff.mp hnil with h | h
      · omega
      · exact h
    simp [hinfile, store_nil]
  · simp only [hnil, if_false, Nat.zero_add]
    rw [readLoop]
    by_cases hfull : (infile.take n).length = n
    · rw [if_pos hfull]
    · -- a short first call has reached the end of the file
      have hdrop : infile.drop n = [] := by
        rw [List.drop_eq_nil_iff]
        rw [List.length_take] at hfull
        omega
      rw [if_neg hfull]
      simp [hdrop]

theorem map_store (buf : Buffer) (chunk : List UInt8) :
    (List.range chunk.length).map (buf.store 0 chunk) = chunk := by
  apply List.ext_getElem
  · simp
  · intro i h _
    have hi : i < chunk.length := by simpa using h
    simp [Buffer.store, hi]

/-! ## Writing -/

/-- The bits a pair is written as. -/
def pairBits (width code : ℕ) (sym : UInt8) : List Bool :=
  (List.range width).map (fun bit => code.testBit (bit % 8)) ++ ofByte sym

def pairsBits (pairs : List Pair) : List Bool :=
  pairs.flatMap fun pair => pairBits pair.bitlen pair.code pair.sym

theorem pairsBits_cons (pair : Pair) (pairs : List Pair) :
    pairsBits (pair :: pairs) = pairBits pair.bitlen pair.code pair.sym ++ pairsBits pairs := rfl

theorem pairsBits_append (pairs pairs' : List Pair) :
    pairsBits (pairs ++ pairs') = pairsBits pairs ++ pairsBits pairs' := by
  simp [pairsBits]

theorem lowBit_eq (x bit : ℕ) : lowBit x bit = x.testBit (bit % 8) := by
  simp [lowBit, Nat.testBit, Nat.and_comm]

/-- After the header the writer has been given `bits`. -/
structure Written (w : BitWriter) (header : List UInt8) (bits : List Bool) : Prop where
  stream : ∃ body, w.outfile = header ++ body ∧
    bits = ofBytes body ++ (List.range w.bit_index).map (bitAt w.bit_buffer)
  inside : w.bit_index ≤ BITS * BLOCK
  clear : ∀ i, w.bit_index ≤ i → bitAt w.bit_buffer i = false

namespace Written

variable {w : BitWriter} {header : List UInt8} {bits : List Bool}

theorem start (header : List UInt8) (total_bits : ℕ) :
    Written ⟨header, fun _ => 0, 0, total_bits⟩ header [] where
  stream := ⟨[], by simp [ofBytes]⟩
  inside := Nat.zero_le _
  clear := by simp [bitAt]

theorem flushBlock (h : Written w header bits) :
    Written w.flushBlock header bits ∧ w.flushBlock.bit_index < BITS * BLOCK := by
  unfold BitWriter.flushBlock
  split
  · next hfull =>
      obtain ⟨body, hout, hbits⟩ := h.stream
      refine ⟨⟨⟨body ++ (List.range BLOCK).map w.bit_buffer, ?_, ?_⟩, Nat.zero_le _, ?_⟩, ?_⟩
      · simp [write_bytes, hout]
      · rw [hbits, hfull, ofBytes_append, ofBytes_map_range]
        simp [BITS]
      · simp [bitAt]
      · simp [BITS, BLOCK]
  · next hroom => exact ⟨h, Nat.lt_of_le_of_ne h.inside hroom⟩

theorem putBit (h : Written w header bits) (bit : Bool) :
    Written (w.putBit bit) header (bits ++ [bit]) := by
  obtain ⟨hflush, hroom⟩ := h.flushBlock
  unfold BitWriter.putBit
  generalize w.flushBlock = w at hflush hroom
  obtain ⟨body, hout, hbits⟩ := hflush.stream
  cases bit with
  | false =>
      simp only [Bool.false_eq_true, if_false]
      refine ⟨⟨body, hout, ?_⟩, hroom, ?_⟩
      · simp [hbits, List.range_succ, hflush.clear]
      · intro i hi
        exact hflush.clear i (Nat.le_of_lt hi)
  | true =>
      simp only [if_true]
      have hset : ∀ j, bitAt (w.bit_buffer.set (w.bit_index / 8) (UInt8.ofNat
          ((w.bit_buffer (w.bit_index / 8)).toNat ||| 1 <<< (w.bit_index % 8)))) j =
            (bitAt w.bit_buffer j || decide (j = w.bit_index)) :=
        bitAt_update w.bit_buffer w.bit_index
      generalize w.bit_buffer.set _ _ = buffer at hset ⊢
      refine ⟨⟨body, hout, ?_⟩, hroom, ?_⟩
      · have hold : (List.range w.bit_index).map (bitAt buffer) =
            (List.range w.bit_index).map (bitAt w.bit_buffer) := by
          apply List.map_congr_left
          intro i hi
          have hne : i ≠ w.bit_index := Nat.ne_of_lt (List.mem_range.mp hi)
          simp [hset, hne]
        simp [hbits, List.range_succ, hold, hset]
      · intro i hi
        have hne : i ≠ w.bit_index := Nat.ne_of_gt hi
        simp [hset, hflush.clear i (Nat.le_of_lt hi), hne]

theorem putBits (h : Written w header bits) (f : ℕ → Bool) (l : List ℕ) :
    Written (l.foldl (fun w i => w.putBit (f i)) w) header (bits ++ l.map f) := by
  induction l generalizing w bits with
  | nil => simpa using h
  | cons i l ih => simpa using ih (h.putBit (f i))

theorem write_pair (h : Written w header bits) (width code : ℕ) (sym : UInt8) :
    Written (Lz78.write_pair w code sym width) header (bits ++ pairBits width code sym) := by
  have hcode := h.putBits (lowBit code) (List.range width)
  have hsym := hcode.putBits (lowBit sym.toNat) (List.range BITS)
  have hbits : bits ++ (List.range width).map (lowBit code) ++
      (List.range BITS).map (lowBit sym.toNat) = bits ++ pairBits width code sym := by
    rw [List.append_assoc]
    congr 1
    unfold pairBits
    congr 1
    · exact List.map_congr_left fun i _ => lowBit_eq code i
    · apply List.map_congr_left
      intro i hi
      have hlt : i < 8 := List.mem_range.mp hi
      rw [lowBit_eq, Nat.mod_eq_of_lt hlt]
  rw [hbits] at hsym
  exact ⟨hsym.stream, hsym.inside, hsym.clear⟩

theorem write_pairs (h : Written w header bits) (pairs : List Pair) :
    Written (Lz78.write_pairs w pairs) header (bits ++ pairsBits pairs) := by
  induction pairs generalizing w bits with
  | nil => simpa [Lz78.write_pairs, pairsBits] using h
  | cons pair pairs ih =>
      have := ih (h.write_pair pair.bitlen pair.code pair.sym)
      simpa [Lz78.write_pairs, pairsBits_cons] using this

/-- The file holds every bit but those of an incomplete last byte. -/
theorem flush_pairs (h : Written w header bits) :
    ∃ body rest, Lz78.flush_pairs w = header ++ body ∧ bits = ofBytes body ++ rest ∧
      rest.length = bits.length % 8 := by
  obtain ⟨body, hout, hbits⟩ := h.stream
  refine ⟨body ++ (List.range (w.bit_index / 8)).map w.bit_buffer,
    (List.range (w.bit_index % 8)).map fun i => bitAt w.bit_buffer (8 * (w.bit_index / 8) + i),
    ?_, ?_, ?_⟩
  · simp [Lz78.flush_pairs, write_bytes, hout]
  · have hsplit : List.range w.bit_index = List.range (8 * (w.bit_index / 8)) ++
        (List.range (w.bit_index % 8)).map (8 * (w.bit_index / 8) + ·) := by
      rw [← List.range_add, Nat.div_add_mod]
    rw [hbits, hsplit, ofBytes_append, ofBytes_map_range]
    simp [Function.comp_def]
  · simp [hbits, length_ofBytes]

end Written

/-! ## Reading -/

/-- The first `n` bytes of the buffer come from the file, and what follows the current
bit there is followed by the rest of the file. Only the last block is short. -/
structure Loaded (r : BitReader) (n : ℕ) (bits : List Bool) : Prop where
  stream : bits = ((List.range (8 * n)).map (bitAt r.bit_buffer)).drop r.bit_index ++
    ofBytes r.infile
  size : n ≤ BLOCK
  short : n < BLOCK → r.infile = []
  inside : r.bit_index < BITS * BLOCK

/-- The bits still to be read; bytes left over from an earlier block are not among them. -/
def Ahead (r : BitReader) (bits : List Bool) : Prop :=
  (r.bit_index = 0 ∧ bits = ofBytes r.infile) ∨ (0 < r.bit_index ∧ ∃ n, Loaded r n bits)

variable {r : BitReader} {bits : List Bool}

/-- The refill of `getBit`. -/
def BitReader.refill (r : BitReader) : BitReader :=
  if r.bit_index = 0 then
    let got := read_bytes r.infile r.bit_buffer BLOCK
    { r with infile := got.2.2, bit_buffer := got.2.1 }
  else r

theorem Ahead.refill (h : Ahead r bits) : ∃ n, Loaded r.refill n bits := by
  unfold BitReader.refill
  rcases h with ⟨hzero, hbits⟩ | ⟨hpos, n, hloaded⟩
  · refine ⟨(r.infile.take BLOCK).length, ?_⟩
    rw [if_pos hzero, read_bytes_eq _ _ (by decide)]
    refine ⟨?_, ?_, ?_, ?_⟩
    · rw [← ofBytes_map_range, map_store, hzero, List.drop_zero, ← ofBytes_append,
        List.take_append_drop, hbits]
    · rw [List.length_take]
      exact Nat.min_le_left _ _
    · intro hlt
      rw [List.length_take] at hlt
      exact List.drop_eq_nil_iff.mpr (by omega)
    · simp [hzero, BITS, BLOCK]
  · exact ⟨n, by rwa [if_neg (by omega)]⟩

theorem Ahead.getBit {b : Bool} (h : Ahead r (b :: bits)) :
    Ahead r.getBit.1 bits ∧ r.getBit.2 = b.toNat := by
  obtain ⟨n, hstream, hsize, hshort, hinside⟩ := h.refill
  have hget : r.getBit = ({ r.refill with bit_index := (r.refill.bit_index + 1) % (BITS * BLOCK) },
      ((r.refill.bit_buffer (r.refill.bit_index / 8)).toNat >>> (r.refill.bit_index % 8)) &&& 1) :=
    rfl
  rw [hget]
  generalize r.refill = r at hstream hshort hinside ⊢
  simp only [BITS, BLOCK] at hinside hsize hshort ⊢
  have hlt : r.bit_index < 8 * n := by
    by_contra hge
    have hdrop : ((List.range (8 * n)).map (bitAt r.bit_buffer)).drop r.bit_index = [] :=
      List.drop_eq_nil_iff.mpr (by simp; omega)
    rw [hdrop, hshort (by omega)] at hstream
    simp [ofBytes] at hstream
  rw [List.drop_eq_getElem_cons (by simpa using hlt)] at hstream
  obtain ⟨hb, htail⟩ := List.cons.inj hstream
  refine ⟨?_, ?_⟩
  · by_cases hwrap : r.bit_index + 1 = 8 * 4096
    · refine Or.inl ⟨by simp [hwrap], ?_⟩
      rw [htail, List.drop_eq_nil_iff.mpr (by simp; omega)]
      rfl
    · have hmod : (r.bit_index + 1) % (8 * 4096) = r.bit_index + 1 :=
        Nat.mod_eq_of_lt (by omega)
      refine Or.inr ⟨by simp [hmod], n, ?_, hsize, hshort, ?_⟩
      · simpa [hmod] using htail
      · simp only [BITS, BLOCK, hmod]
        omega
  · subst hb
    rw [shiftRight_and_one, List.getElem_map, List.getElem_range, bitAt]

theorem getBits_succ (r : BitReader) (count : ℕ) :
    r.getBits (count + 1) = ((r.getBits count).1.getBit.1,
      (r.getBits count).2 ||| (r.getBits count).1.getBit.2 <<< count) := by
  simp [BitReader.getBits, List.range_succ]

theorem Ahead.getBits {front : List Bool} (h : Ahead r (front ++ bits)) :
    Ahead (r.getBits front.length).1 bits ∧ (r.getBits front.length).2 = value front := by
  induction front using List.reverseRecOn generalizing bits with
  | nil => exact ⟨h, rfl⟩
  | append_singleton front b ih =>
      rw [List.append_assoc] at h
      obtain ⟨hahead, hvalue⟩ := ih h
      obtain ⟨hrest, hbit⟩ := Ahead.getBit hahead
      rw [List.length_append, List.length_singleton, getBits_succ, hvalue, hbit, value_concat]
      exact ⟨hrest, rfl⟩

theorem Ahead.counted (h : Ahead r bits) (total_bits : ℕ) :
    Ahead { r with total_bits := total_bits } bits := by
  rcases h with h | ⟨hpos, n, hloaded⟩
  · exact Or.inl h
  · exact Or.inr ⟨hpos, n, hloaded.stream, hloaded.size, hloaded.short, hloaded.inside⟩

/-- The code that is read for a code written with a width. -/
def spread (width code : ℕ) : ℕ :=
  value ((List.range width).map fun bit => code.testBit (bit % 8))

theorem spread_lt (width code : ℕ) : spread width code < 2 ^ width := by
  simpa [spread] using value_lt ((List.range width).map fun bit => code.testBit (bit % 8))

/-- The same on either kind of machine. -/
def seen (big_endian : Bool) (width code : ℕ) : ℕ :=
  if big_endian then swap16 (spread width code) else spread width code

/-- Reading a pair that was written, with its width. -/
theorem read_pair_eq (big_endian : Bool) {width code : ℕ} {sym : UInt8}
    (hwidth : width ≤ 16) (h : Ahead r (pairBits width code sym ++ bits)) :
    ∃ r', Ahead r' bits ∧ read_pair big_endian r width =
      (r', seen big_endian width code, sym, decide (seen big_endian width code ≠ STOP_CODE)) := by
  rw [pairBits, List.append_assoc] at h
  obtain ⟨hsym, hcode⟩ := h.getBits
  obtain ⟨hrest, hvalue⟩ := hsym.getBits
  simp only [List.length_map, List.length_range] at hsym hcode hrest hvalue
  rw [show (ofByte sym).length = BITS from by simp [ofByte, BITS]] at hrest hvalue
  have hlt : spread width code < 2 ^ 16 :=
    Nat.lt_of_lt_of_le (spread_lt width code) (Nat.pow_le_pow_right (by decide) hwidth)
  refine ⟨_, hrest.counted (((r.getBits width).1.getBits BITS).1.total_bits + (width + BITS)), ?_⟩
  unfold read_pair seen
  dsimp only
  rw [hvalue, value_ofByte, show (r.getBits width).2 = spread width code from hcode,
    Nat.mod_eq_of_lt hlt]

/-- A stop pair is recognised by its code bits alone. -/
theorem read_pair_stop (big_endian : Bool) {width : ℕ}
    (h : Ahead r (List.replicate width false ++ bits)) :
    (read_pair big_endian r width).2.2.2 = false := by
  have hcode := h.getBits.2
  rw [List.length_replicate] at hcode
  have hzero : value (List.replicate width false) = 0 :=
    value_eq_zero.mpr fun b hb => List.eq_of_mem_replicate hb
  simp [read_pair, hcode, hzero, swap16, STOP_CODE]

/-! ## Words out -/

/-- The writer has been given `out`. -/
def Emitted (w : SymWriter) (out : List UInt8) : Prop :=
  out = w.outfile ++ (List.range w.sym_index).map w.sym_buffer

namespace Emitted

variable {w : SymWriter} {out : List UInt8}

theorem putSym (h : Emitted w out) (sym : UInt8) : Emitted (w.putSym sym) (out ++ [sym]) := by
  have hstore : ∀ v : SymWriter, Emitted v out →
      Emitted { v with
        sym_buffer := v.sym_buffer.set v.sym_index sym
        sym_index := v.sym_index + 1 } (out ++ [sym]) := by
    intro v hv
    have hold : (List.range v.sym_index).map (v.sym_buffer.set v.sym_index sym) =
        (List.range v.sym_index).map v.sym_buffer := by
      apply List.map_congr_left
      intro i hi
      exact Function.update_of_ne (Nat.ne_of_lt (List.mem_range.mp hi)) _ _
    simp only [Emitted, List.range_succ, List.map_append, hold]
    rw [← List.append_assoc, ← hv]
    simp [Buffer.set]
  unfold SymWriter.putSym
  apply hstore
  split
  · next hfull => simpa [Emitted, write_bytes, hfull] using h
  · exact h

theorem write_word (h : Emitted w out) (word : Word) :
    Emitted (Lz78.write_word w word) (out ++ word) := by
  have hloop : ∀ (w : SymWriter) (out : List UInt8), Emitted w out →
      Emitted (word.foldl SymWriter.putSym w) (out ++ word) := by
    induction word with
    | nil => exact fun w out h => by simpa using h
    | cons sym word ih => exact fun w out h => by simpa using ih _ _ (h.putSym sym)
  exact hloop w out h

theorem flush_words (h : Emitted w out) : Lz78.flush_words w = out := h.symm

end Emitted

end FavoriteAssignments.Lz78
