import FavoriteAssignments.Lz78.Coder
import Mathlib.Data.Int.Notation

/-! # Block buffers

`io.c` and the programs of `encode.c` and `decode.c`. `read(2)` and `write(2)` transfer
the full count except at the end of a file. A program that dereferences a null pointer,
leaves the word table or does not end has no output. -/

namespace FavoriteAssignments.Lz78

def BLOCK : ℕ := 4096
def BITS : ℕ := 8
def MAGIC : ℕ := 0xBAADBAAC

abbrev Buffer := ℕ → UInt8

/-- `chunk` copied to `buf + offset`. -/
def Buffer.store (buf : Buffer) (offset : ℕ) (chunk : List UInt8) : Buffer :=
  fun i => if offset ≤ i then chunk[i - offset]?.getD (buf i) else buf i

/-- `buf[i] = byte`. -/
def Buffer.set (buf : Buffer) (i : ℕ) (byte : UInt8) : Buffer :=
  Function.update buf i byte

/-- The loop of `read_bytes`, with what is left of the file. Every call asks for
`to_read` bytes; one that returns none is the last. -/
def readLoop (infile : List UInt8) (buf : Buffer) (to_read total : ℕ) :
    ℕ × Buffer × List UInt8 :=
  if total = to_read then (total, buf, infile)
  else
    let chunk := infile.take to_read
    if chunk = [] then (total, buf, infile)
    else readLoop (infile.drop to_read) (buf.store total chunk) to_read (total + chunk.length)
termination_by infile.length
decreasing_by
  rename_i hchunk
  have : 0 < (infile.take to_read).length := List.length_pos_iff.mpr hchunk
  simp only [List.length_take, List.length_drop] at this ⊢
  omega

def read_bytes (infile : List UInt8) (buf : Buffer) (to_read : ℕ) : ℕ × Buffer × List UInt8 :=
  readLoop infile buf to_read 0

/-- One call of `write` takes everything. -/
def write_bytes (outfile : List UInt8) (buf : Buffer) (to_write : ℕ) : List UInt8 :=
  outfile ++ (List.range to_write).map buf

/-! ## The header -/

def swap16 (x : ℕ) : ℕ := (x &&& 0x00FF) <<< 8 ||| (x &&& 0xFF00) >>> 8

def swap32 (x : ℕ) : ℕ :=
  (x &&& 0x000000FF) <<< 24 ||| (x &&& 0x0000FF00) <<< 8 |||
    (x &&& 0x00FF0000) >>> 8 ||| (x &&& 0xFF000000) >>> 24

structure FileHeader where
  magic : ℕ
  protection : ℕ

/-- The `n` bytes of an integer in memory. -/
def memory (big_endian : Bool) (n x : ℕ) : List UInt8 :=
  let bytes := (List.range n).map fun i => UInt8.ofNat (x >>> (8 * i))
  if big_endian then bytes.reverse else bytes

/-- `write_header`: the struct as it lies in memory, with its two bytes of padding. -/
def write_header (big_endian : Bool) (outfile : List UInt8) (header : FileHeader) :
    List UInt8 :=
  let header : FileHeader :=
    if big_endian then ⟨swap32 header.magic, swap16 header.protection⟩ else header
  outfile ++ memory big_endian 4 header.magic ++ memory big_endian 2 header.protection ++ [0, 0]

/-- `read_header`; of the header only its place in the file is used afterwards. -/
def read_header (infile : List UInt8) : List UInt8 :=
  (read_bytes infile (fun _ => 0) 8).2.2

/-! ## Symbols in -/

/-- The static variables behind `read_sym`. -/
structure SymReader where
  infile : List UInt8
  sym_buffer : Buffer
  sym_index : ℕ
  endIndex : ℤ
  total_syms : ℕ

def symReaderStart (infile : List UInt8) : SymReader := ⟨infile, fun _ => 0, 0, -1, 0⟩

/-- `if (!sym_index)`: the next block, and where the file ends in it. -/
def SymReader.refill (r : SymReader) : SymReader :=
  if r.sym_index = 0 then
    let got := read_bytes r.infile r.sym_buffer BLOCK
    { r with
      infile := got.2.2
      sym_buffer := got.2.1
      endIndex := if got.1 < BLOCK then got.1 + 1 else r.endIndex }
  else r

/-- The rest of `read_sym`. -/
def SymReader.deliver (r : SymReader) : SymReader × UInt8 × Bool :=
  let sym_index := (r.sym_index + 1) % BLOCK
  let more := decide ((sym_index : ℤ) ≠ r.endIndex)
  ({ r with
      sym_index := sym_index
      total_syms := if more then r.total_syms + 1 else r.total_syms },
    r.sym_buffer r.sym_index, more)

def read_sym (r : SymReader) : SymReader × UInt8 × Bool := r.refill.deliver

/-! ## Pairs out -/

structure BitWriter where
  outfile : List UInt8
  bit_buffer : Buffer
  bit_index : ℕ
  total_bits : ℕ

/-- `if (bit_index == BITS * BLOCK)`. -/
def BitWriter.flushBlock (w : BitWriter) : BitWriter :=
  if w.bit_index = BITS * BLOCK then
    { w with
      outfile := write_bytes w.outfile w.bit_buffer BLOCK
      bit_buffer := fun _ => 0
      bit_index := 0 }
  else w

/-- One iteration of a loop of `write_pair`. -/
def BitWriter.putBit (w : BitWriter) (bit : Bool) : BitWriter :=
  let w := w.flushBlock
  let byte := (w.bit_buffer (w.bit_index / 8)).toNat ||| 1 <<< (w.bit_index % 8)
  let w :=
    if bit then { w with bit_buffer := w.bit_buffer.set (w.bit_index / 8) (UInt8.ofNat byte) }
    else w
  { w with bit_index := w.bit_index + 1 }

/-- Bit `bit % 8` of a value, the one both loops of `write_pair` look at. -/
def lowBit (x bit : ℕ) : Bool := decide ((x >>> (bit % 8)) &&& 1 ≠ 0)

/-- `write_pair`; `swap16(code)` is computed on a big-endian machine and dropped. -/
def write_pair (w : BitWriter) (code : ℕ) (sym : UInt8) (bitlen : ℕ) : BitWriter :=
  let w := (List.range bitlen).foldl (fun w bit => w.putBit (lowBit code bit)) w
  let w := (List.range BITS).foldl (fun w bit => w.putBit (lowBit sym.toNat bit)) w
  { w with total_bits := w.total_bits + (bitlen + BITS) }

def write_pairs (w : BitWriter) (pairs : List Pair) : BitWriter :=
  pairs.foldl (fun w pair => write_pair w pair.code pair.sym pair.bitlen) w

def flush_pairs (w : BitWriter) : List UInt8 :=
  write_bytes w.outfile w.bit_buffer (w.bit_index / 8)

/-! ## Pairs in -/

structure BitReader where
  infile : List UInt8
  bit_buffer : Buffer
  bit_index : ℕ
  total_bits : ℕ

/-- One iteration of a loop of `read_pair`. -/
def BitReader.getBit (r : BitReader) : BitReader × ℕ :=
  let r :=
    if r.bit_index = 0 then
      let got := read_bytes r.infile r.bit_buffer BLOCK
      { r with infile := got.2.2, bit_buffer := got.2.1 }
    else r
  ({ r with bit_index := (r.bit_index + 1) % (BITS * BLOCK) },
    ((r.bit_buffer (r.bit_index / 8)).toNat >>> (r.bit_index % 8)) &&& 1)

/-- `count` bits, least significant first. -/
def BitReader.getBits (r : BitReader) (count : ℕ) : BitReader × ℕ :=
  (List.range count).foldl
    (fun acc bit => (acc.1.getBit.1, acc.2 ||| acc.1.getBit.2 <<< bit)) (r, 0)

def read_pair (big_endian : Bool) (r : BitReader) (bitlen : ℕ) :
    BitReader × ℕ × UInt8 × Bool :=
  let code := r.getBits bitlen
  let sym := code.1.getBits BITS
  let value := if big_endian then swap16 (code.2 % 2 ^ 16) else code.2 % 2 ^ 16
  ({ sym.1 with total_bits := sym.1.total_bits + (bitlen + BITS) }, value,
    UInt8.ofNat sym.2, decide (value ≠ STOP_CODE))

/-! ## Words out -/

structure SymWriter where
  outfile : List UInt8
  sym_buffer : Buffer
  sym_index : ℕ
  total_syms : ℕ

/-- One iteration of the loop of `write_word`. -/
def SymWriter.putSym (w : SymWriter) (sym : UInt8) : SymWriter :=
  let w :=
    if w.sym_index = BLOCK then
      { w with outfile := write_bytes w.outfile w.sym_buffer BLOCK, sym_index := 0 }
    else w
  { w with
    sym_buffer := w.sym_buffer.set w.sym_index sym
    sym_index := w.sym_index + 1 }

def write_word (w : SymWriter) (word : Word) : SymWriter :=
  let w := word.foldl SymWriter.putSym w
  { w with total_syms := w.total_syms + word.length }

def flush_words (w : SymWriter) : List UInt8 :=
  write_bytes w.outfile w.sym_buffer w.sym_index

/-! ## The programs -/

/-- The compression loop; without fuel it has not ended. -/
def encodeLoop : ℕ → SymReader → Encoder → BitWriter → Option (Encoder × BitWriter)
  | 0, _, _, _ => none
  | fuel + 1, r, e, w =>
      match read_sym r with
      | (r, curr_sym, true) =>
          let next := encodeSym e curr_sym
          encodeLoop fuel r next.1 (write_pairs w next.2)
      | (_, _, false) => some (e, w)

/-- `encode`, for an input file with permissions `mode`. -/
def encode (big_endian : Bool) (mode fuel : ℕ) (infile : List UInt8) : Option (List UInt8) :=
  let outfile := write_header big_endian [] ⟨MAGIC, mode % 2 ^ 16⟩
  match encodeLoop fuel (symReaderStart infile) encoderStart ⟨outfile, fun _ => 0, 0, 64⟩ with
  | none => none
  | some (e, w) =>
      (encodePending e).map fun pending =>
        flush_pairs (write_pair (write_pairs w pending.1) STOP_CODE 0 (bitlen pending.2))

/-- The decompression loop. -/
def decodeLoop (big_endian : Bool) : ℕ → BitReader → Decoder → SymWriter → Option SymWriter
  | 0, _, _, _ => none
  | fuel + 1, r, d, w =>
      match read_pair big_endian r (bitlen d.next_code) with
      | (r, curr_code, curr_sym, true) =>
          match decodePair d curr_code curr_sym with
          | none => none
          | some (d, word) => decodeLoop big_endian fuel r d (write_word w word)
      | (_, _, _, false) => some w

def decode (big_endian : Bool) (fuel : ℕ) (infile : List UInt8) : Option (List UInt8) :=
  (decodeLoop big_endian fuel ⟨read_header infile, fun _ => 0, 0, 64⟩ decoderStart
    ⟨[], fun _ => 0, 0, 0⟩).map flush_words

/-- `encode` ends on `syms`, and `decode` ends on its file with `syms`. -/
def RoundTrips (big_endian : Bool) (mode : ℕ) (syms : List UInt8) : Prop :=
  ∃ file, (∃ fuel, encode big_endian mode fuel syms = some file) ∧
    ∃ fuel, decode big_endian fuel file = some syms

end FavoriteAssignments.Lz78
