import FavoriteAssignments.Lz78.Loops
import Mathlib.Tactic.IntervalCases

/-! # The file and its statistics

A file of `encode` is the same on either kind of machine, header included, and either kind
reads the header back. The sizes that `-v` prints are those of the two files. -/

namespace FavoriteAssignments.Lz78

open Bits

/-! ## Integers in memory -/

/-- The bytes of `y` are those of `x` in the other order. -/
structure Reversed (n x y : ℕ) : Prop where
  lt : y < 2 ^ (8 * n)
  testBit : ∀ i < 8 * n, y.testBit i = x.testBit (8 * (n - 1 - i / 8) + i % 8)

theorem and_shiftLeft_lt {x mask k n : ℕ} (h : mask <<< k < 2 ^ n) :
    (x &&& mask) <<< k < 2 ^ n := by
  refine lt_of_le_of_lt ?_ h
  rw [Nat.shiftLeft_eq, Nat.shiftLeft_eq]
  exact Nat.mul_le_mul_right _ Nat.and_le_right

theorem and_shiftRight_lt {x mask k n : ℕ} (h : mask < 2 ^ n) : (x &&& mask) >>> k < 2 ^ n :=
  lt_of_le_of_lt ((Nat.shiftRight_le _ _).trans Nat.and_le_right) h

/-- The mask of byte `k`. -/
theorem testBit_mask (x k i : ℕ) :
    (x &&& 255 <<< (8 * k)).testBit i = (x.testBit i && decide (i / 8 = k)) := by
  rw [Nat.testBit_and, Nat.testBit_shiftLeft, show 255 = 2 ^ 8 - 1 from rfl,
    Nat.testBit_two_pow_sub_one, ← Bool.decide_and]
  congr 2
  rw [eq_iff_iff]
  omega

theorem reversed_swap16 (x : ℕ) : Reversed 2 x (swap16 x) where
  lt := Nat.or_lt_two_pow (and_shiftLeft_lt (by decide)) (and_shiftRight_lt (by decide))
  testBit i hi := by
    have hmasks : swap16 x =
        (x &&& 255 <<< (8 * 0)) <<< 8 ||| (x &&& 255 <<< (8 * 1)) >>> 8 := rfl
    rw [hmasks]
    simp only [Nat.testBit_or, Nat.testBit_shiftLeft, Nat.testBit_shiftRight, testBit_mask]
    interval_cases i <;> simp

theorem reversed_swap32 (x : ℕ) : Reversed 4 x (swap32 x) where
  lt := Nat.or_lt_two_pow (Nat.or_lt_two_pow (Nat.or_lt_two_pow
    (and_shiftLeft_lt (by decide)) (and_shiftLeft_lt (by decide)))
    (and_shiftRight_lt (by decide))) (and_shiftRight_lt (by decide))
  testBit i hi := by
    have hmasks : swap32 x =
        (x &&& 255 <<< (8 * 0)) <<< 24 ||| (x &&& 255 <<< (8 * 1)) <<< 8 |||
          (x &&& 255 <<< (8 * 2)) >>> 8 ||| (x &&& 255 <<< (8 * 3)) >>> 24 := rfl
    rw [hmasks]
    simp only [Nat.testBit_or, Nat.testBit_shiftLeft, Nat.testBit_shiftRight, testBit_mask]
    interval_cases i <;> simp

section Integers

variable {n x y z : ℕ}

theorem Reversed.twice (h : Reversed n x y) (h' : Reversed n y z) (hx : x < 2 ^ (8 * n)) :
    z = x := by
  refine Nat.eq_of_testBit_eq fun i => ?_
  by_cases hi : i < 8 * n
  · rw [h'.testBit i hi, h.testBit _ (by omega)]
    congr 1
    omega
  · have hle : 2 ^ (8 * n) ≤ 2 ^ i := Nat.pow_le_pow_right (by decide) (by omega)
    rw [Nat.testBit_lt_two_pow (h'.lt.trans_le hle), Nat.testBit_lt_two_pow (hx.trans_le hle)]

theorem swap16_swap16 (hx : x < 2 ^ 16) : swap16 (swap16 x) = x :=
  (reversed_swap16 x).twice (reversed_swap16 _) hx

theorem swap32_swap32 (hx : x < 2 ^ 32) : swap32 (swap32 x) = x :=
  (reversed_swap32 x).twice (reversed_swap32 _) hx

theorem byte_testBit (x i j : ℕ) :
    (UInt8.ofNat (x >>> (8 * i))).toNat.testBit j = (decide (j < 8) && x.testBit (8 * i + j)) := by
  rw [UInt8.toNat_ofNat', Nat.testBit_mod_two_pow, Nat.testBit_shiftRight]

/-- Swapping the bytes makes up for the order in which a big-endian machine stores them. -/
theorem Reversed.memory (h : Reversed n x y) : memory true n y = memory false n x := by
  refine List.ext_getElem (by simp [Lz78.memory]) fun i hi hi' => ?_
  have hlt : i < n := by simpa [Lz78.memory] using hi
  simp only [Lz78.memory, if_true, Bool.false_eq_true, if_false, List.getElem_reverse,
    List.getElem_map, List.getElem_range, List.length_map, List.length_range]
  refine UInt8.toNat_inj.mp (Nat.eq_of_testBit_eq fun j => ?_)
  rw [byte_testBit, byte_testBit]
  by_cases hj : j < 8
  · rw [h.testBit _ (by omega)]
    congr 2
    omega
  · simp [hj]

/-- The value of an integer that lies in memory. -/
def loadInt (big_endian : Bool) (bytes : List UInt8) : ℕ :=
  value (ofBytes (if big_endian then bytes.reverse else bytes))

theorem loadInt_memory (big_endian : Bool) (hx : x < 2 ^ (8 * n)) :
    loadInt big_endian (memory big_endian n x) = x := by
  have hbytes : ofBytes ((List.range n).map fun i => UInt8.ofNat (x >>> (8 * i))) =
      (List.range (8 * n)).map x.testBit := by
    rw [ofBytes_map_range]
    refine List.map_congr_left fun i _ => ?_
    rw [bitAt, byte_testBit, Nat.div_add_mod]
    simp [Nat.mod_lt]
  cases big_endian <;> simp [loadInt, memory, hbytes, value_testBits _ _ hx]

end Integers

/-! ## The header -/

/-- All of `read_header`: the header, whose bytes are those of `head` where the file ends
before, and the rest of the file. -/
def readHeader (big_endian : Bool) (head : Buffer) (infile : List UInt8) :
    FileHeader × List UInt8 :=
  let got := read_bytes infile head 8
  let magic := loadInt big_endian ((List.range 4).map got.2.1)
  let protection := loadInt big_endian ((List.range 2).map fun i => got.2.1 (4 + i))
  (if big_endian then ⟨swap32 magic, swap16 protection⟩ else ⟨magic, protection⟩, got.2.2)

theorem readHeader_rest (big_endian : Bool) (head : Buffer) (infile : List UInt8) :
    (readHeader big_endian head infile).2 = read_header infile := by
  rw [readHeader, read_header, read_bytes_eq _ _ (by decide), read_bytes_eq _ _ (by decide)]

/-- The header as a little-endian machine lays it out. -/
def headerBytes (header : FileHeader) : List UInt8 :=
  memory false 4 header.magic ++ memory false 2 header.protection ++ [0, 0]

theorem write_header_eq (big_endian : Bool) (header : FileHeader) :
    write_header big_endian [] header = headerBytes header := by
  cases big_endian
  · simp [write_header, headerBytes]
  · simp [write_header, headerBytes, (reversed_swap32 header.magic).memory,
      (reversed_swap16 header.protection).memory]

theorem length_memory (big_endian : Bool) (n x : ℕ) : (memory big_endian n x).length = n := by
  cases big_endian <;> simp [memory]

theorem loadInt_swapped {n x y : ℕ} (h : Reversed n x y) :
    loadInt true (memory false n x) = y := by
  rw [← h.memory]
  exact loadInt_memory true h.lt

theorem readHeader_headerBytes (big_endian : Bool) (head : Buffer) {header : FileHeader}
    (hmagic : header.magic < 2 ^ 32) (hprotection : header.protection < 2 ^ 16)
    (body : List UInt8) :
    readHeader big_endian head (headerBytes header ++ body) = (header, body) := by
  have hlength : (headerBytes header).length = 8 := by simp [headerBytes, length_memory]
  rw [readHeader, read_bytes_eq _ _ (by decide), List.take_left' hlength, List.drop_left' hlength]
  have hall := map_store head (headerBytes header)
  rw [hlength, show 8 = 4 + 2 + 2 from rfl, List.range_add, List.range_add, List.map_append,
    List.map_append, List.map_map] at hall
  have hfront := List.append_inj (List.append_inj hall (by simp [length_memory])).1
    (by simp [length_memory])
  have hfirst : (List.range 4).map (head.store 0 (headerBytes header)) =
      memory false 4 header.magic := hfront.1
  have hsecond : (List.range 2).map (fun i => head.store 0 (headerBytes header) (4 + i)) =
      memory false 2 header.protection := hfront.2
  dsimp only
  rw [hfirst, hsecond]
  cases big_endian
  · simp [loadInt_memory false (n := 4) hmagic, loadInt_memory false (n := 2) hprotection]
  · simp [loadInt_swapped (reversed_swap32 _), loadInt_swapped (reversed_swap16 _),
      swap32_swap32 hmagic, swap16_swap16 hprotection]

/-- Whatever the machine, `encode` writes the same file, and on either kind of machine
`read_header` gets the magic number and the permissions back. -/
theorem encode_portable (big_endian : Bool) (mode fuel : ℕ) (syms : List UInt8) :
    encode big_endian mode fuel syms = encode false mode fuel syms ∧
    ∀ file, encode big_endian mode fuel syms = some file → ∀ reader head,
      readHeader reader head file = (⟨MAGIC, mode % 2 ^ 16⟩, read_header file) := by
  constructor
  · rw [encode, encode, write_header_eq, write_header_eq]
  · intro file hfile reader head
    obtain ⟨body, -, ⟨fuel', hencode⟩, -⟩ := encode_file big_endian mode syms
    obtain rfl := encode_unique hencode hfile
    rw [← readHeader_rest reader head, write_header_eq,
      readHeader_headerBytes reader head (show MAGIC < 2 ^ 32 by decide)
        (Nat.mod_lt _ (by decide))]

/-- The file of an empty input, written and read on machines of different kinds. -/
theorem encode_portable_empty : ∃ fuel file, encode true 0x81A4 fuel [] = some file ∧
    readHeader false (fun _ => 0) file = (⟨MAGIC, 0x81A4⟩, read_header file) := by
  obtain ⟨body, -, ⟨fuel, hencode⟩, -⟩ := encode_file true 0x81A4 []
  exact ⟨fuel, _, hencode, (encode_portable true 0x81A4 fuel []).2 _ hencode false fun _ => 0⟩

/-! ## The statistics of `encode` -/

/-- The compression loop, with the reader as well. -/
def encodeRun : ℕ → SymReader → Encoder → BitWriter → Option (SymReader × Encoder × BitWriter)
  | 0, _, _, _ => none
  | fuel + 1, r, e, w =>
      match read_sym r with
      | (r, curr_sym, true) =>
          let next := encodeSym e curr_sym
          encodeRun fuel r next.1 (write_pairs w next.2)
      | (r, _, false) => some (r, e, w)

/-- `encode -v`: the file with `total_bits` and `total_syms`, from which the sizes are
printed. -/
def encodeVerbose (big_endian : Bool) (mode fuel : ℕ) (infile : List UInt8) :
    Option (List UInt8 × ℕ × ℕ) :=
  let outfile := write_header big_endian [] ⟨MAGIC, mode % 2 ^ 16⟩
  match encodeRun fuel (symReaderStart infile) encoderStart ⟨outfile, fun _ => 0, 0, 64⟩ with
  | none => none
  | some (r, e, w) =>
      (encodePending e).map fun pending =>
        let w := write_pair (write_pairs w pending.1) STOP_CODE 0 (bitlen pending.2)
        (flush_pairs w, w.total_bits, r.total_syms)

theorem encodeRun_loop (fuel : ℕ) (r : SymReader) (e : Encoder) (w : BitWriter) :
    (encodeRun fuel r e w).map Prod.snd = encodeLoop fuel r e w := by
  induction fuel generalizing r e w with
  | zero => rfl
  | succ fuel ih =>
      rw [encodeRun, encodeLoop]
      rcases read_sym r with ⟨r', sym, more⟩
      cases more with
      | false => rfl
      | true => exact ih r' _ _

theorem encodeVerbose_file (big_endian : Bool) (mode fuel : ℕ) (infile : List UInt8) :
    (encodeVerbose big_endian mode fuel infile).map Prod.fst =
      encode big_endian mode fuel infile := by
  rw [encodeVerbose, encode, ← encodeRun_loop]
  cases encodeRun fuel (symReaderStart infile) encoderStart
      ⟨write_header big_endian [] ⟨MAGIC, mode % 2 ^ 16⟩, fun _ => 0, 0, 64⟩ with
  | none => rfl
  | some out =>
      simp only [Option.map_some, Option.map_map]
      rfl

section Statistics

variable {w w' : BitWriter} {r r' s : SymReader} {e e' : Encoder} {syms : List UInt8} {fuel : ℕ}

/-- The loop counts the symbols it is given. -/
theorem encodeRun_total_syms (h : Delivered s syms) (hr : r.refill = s)
    (hrun : encodeRun fuel r e w = some (r', e', w')) :
    r'.total_syms = r.total_syms + syms.length := by
  induction h generalizing fuel r e w with
  | stop hstop =>
      subst hr
      cases fuel with
      | zero => cases hrun
      | succ fuel =>
          rw [encodeRun, read_sym_eq hstop] at hrun
          obtain ⟨rfl, -⟩ := Prod.mk.inj (Option.some.inj hrun)
          rw [total_syms_deliver, hstop, total_syms_refill]
          rfl
  | @more _ syms hmore _ ih =>
      subst hr
      cases fuel with
      | zero => cases hrun
      | succ fuel =>
          rw [encodeRun, read_sym_eq hmore] at hrun
          rw [ih rfl hrun, total_syms_deliver, hmore, total_syms_refill, List.length_cons]
          simp only [if_true]
          omega

theorem total_bits_putBit (w : BitWriter) (bit : Bool) :
    (w.putBit bit).total_bits = w.total_bits := by
  have hflush : w.flushBlock.total_bits = w.total_bits := by
    rw [BitWriter.flushBlock]
    split <;> rfl
  rw [← hflush, BitWriter.putBit]
  cases bit <;> rfl

theorem total_bits_putBits (w : BitWriter) (f : ℕ → Bool) (l : List ℕ) :
    (l.foldl (fun w i => w.putBit (f i)) w).total_bits = w.total_bits := by
  induction l generalizing w with
  | nil => rfl
  | cons i l ih => rw [List.foldl_cons, ih, total_bits_putBit]

theorem total_bits_write_pair (w : BitWriter) (code : ℕ) (sym : UInt8) (width : ℕ) :
    (write_pair w code sym width).total_bits =
      w.total_bits + (pairBits width code sym).length := by
  rw [write_pair, length_pairBits, total_bits_putBits, total_bits_putBits]
  rfl

theorem total_bits_write_pairs (w : BitWriter) (pairs : List Pair) :
    (write_pairs w pairs).total_bits = w.total_bits + (pairsBits pairs).length := by
  induction pairs generalizing w with
  | nil => rfl
  | cons pair pairs ih =>
      rw [write_pairs, List.foldl_cons, ← write_pairs, ih, total_bits_write_pair, pairsBits_cons,
        List.length_append, Nat.add_assoc]

/-- All bits of the file are counted, those of the header included. -/
theorem Written.length_flush_pairs {header : List UInt8} {bits : List Bool}
    (h : Written w header bits) (hcount : w.total_bits = 8 * header.length + bits.length) :
    (Lz78.flush_pairs w).length = w.total_bits / 8 := by
  obtain ⟨body, rest, hfile, hbits, hrest⟩ := h.flush_pairs
  rw [hfile, hcount, hbits, List.length_append, List.length_append, length_ofBytes]
  rw [hbits, List.length_append, length_ofBytes] at hrest
  omega

end Statistics

/-- `encode -v` ends, and prints the sizes of its two files: `total_bits / 8` is the length of
the file it has written, and `total_syms` that of the file it has read, or one more where the
last block of this one is one byte short of full. -/
theorem encode_statistics (big_endian : Bool) (mode : ℕ) (syms : List UInt8) :
    (∃ fuel out, encodeVerbose big_endian mode fuel syms = some out) ∧
    ∀ fuel file total_bits total_syms,
      encodeVerbose big_endian mode fuel syms = some (file, total_bits, total_syms) →
        encode big_endian mode fuel syms = some file ∧ file.length = total_bits / 8 ∧
          total_syms = syms.length + if syms.length % BLOCK = BLOCK - 1 then 1 else 0 := by
  constructor
  · obtain ⟨body, -, ⟨fuel, hencode⟩, -⟩ := encode_file big_endian mode syms
    rw [← encodeVerbose_file] at hencode
    obtain ⟨out, hout, -⟩ := Option.map_eq_some_iff.mp hencode
    exact ⟨fuel, out, hout⟩
  · intro fuel file total_bits total_syms hverbose
    refine ⟨by rw [← encodeVerbose_file, hverbose]; rfl, ?_⟩
    rw [encodeVerbose] at hverbose
    generalize hheader : write_header big_endian [] ⟨MAGIC, mode % 2 ^ 16⟩ = header at hverbose
    have hlength : header.length = 8 := by rw [← hheader, length_write_header]
    split at hverbose
    · cases hverbose
    · next r e w hrun =>
        obtain ⟨pending, -, hout⟩ := Option.map_eq_some_iff.mp hverbose
        have hloop := congrArg (Option.map Prod.snd) hrun
        rw [encodeRun_loop] at hloop
        have htrace := encodeLoop_trace fuel (symReaderStart syms) encoderStart
          ⟨header, fun _ => 0, 0, 64⟩ []
        rw [write_pairs, List.foldl_nil, hloop] at htrace
        obtain ⟨⟨e', pairs⟩, -, hlast⟩ := Option.map_eq_some_iff.mp htrace.symm
        obtain ⟨-, rfl⟩ := Prod.mk.inj hlast
        obtain ⟨rfl, hcounts⟩ := Prod.mk.inj hout
        obtain ⟨rfl, rfl⟩ := Prod.mk.inj hcounts
        constructor
        · have hwritten := (Written.start header 64).write_pairs
            (pairs ++ pending.1 ++ [⟨STOP_CODE, 0, bitlen pending.2⟩])
          have hcount := total_bits_write_pairs ⟨header, fun _ => 0, 0, 64⟩
            (pairs ++ pending.1 ++ [⟨STOP_CODE, 0, bitlen pending.2⟩])
          rw [write_pairs_append, write_pairs_append] at hwritten hcount
          exact hwritten.length_flush_pairs (by rw [hlength]; exact hcount)
        · rw [encodeRun_total_syms (delivered_file syms (fun _ => 0) 0) rfl hrun, deliveredFrom]
          split <;> simp

theorem encode_statistics_one_byte : ∃ fuel file total_bits,
    encodeVerbose false 0x81A4 fuel [7] = some (file, total_bits, 1) ∧
      file.length = total_bits / 8 := by
  obtain ⟨⟨fuel, ⟨file, total_bits, total_syms⟩, hrun⟩, hsizes⟩ :=
    encode_statistics false 0x81A4 [7]
  obtain ⟨-, hlength, hsyms⟩ := hsizes fuel file total_bits total_syms hrun
  have hone : total_syms = 1 := hsyms.trans (by decide)
  exact ⟨fuel, file, total_bits, hone ▸ hrun, hlength⟩

end FavoriteAssignments.Lz78
