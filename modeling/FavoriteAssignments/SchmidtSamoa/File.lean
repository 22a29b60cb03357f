import FavoriteAssignments.SchmidtSamoa.Keys
import FavoriteAssignments.Library.CStrings
import Mathlib.Data.Nat.Size

/-! # File encryption

`ss_encrypt_file` and `ss_decrypt_file` over a file of bytes. The encrypted file is
the text that `fprintf` writes; `none` is a run that does not finish or leaves the
language, by `exit` or by a write past the end of a block. -/

namespace FavoriteAssignments.SchmidtSamoa

open CStrings Positional

/-! ## Integers as bytes and as text -/

/-- `mpz_sizeinbase(n, 2)`. -/
def sizeinbase2 (n : ℕ) : ℕ := max 1 n.size

/-- `mpz_import` of bytes, most significant first. -/
def mpz_import (bytes : List UInt8) : ℤ := value 256 (bytes.map UInt8.toNat)

/-- The bytes `mpz_export` writes, most significant first; none for zero. -/
def mpz_export (m : ℤ) : List UInt8 := (numeral 256 m.natAbs).map UInt8.ofNat

/-- `mpz_get_str` in base 16. -/
def mpz_get_str (m : ℤ) : List Char :=
  (if m < 0 then ['-'] else []) ++
    (if m = 0 then ['0'] else (numeral 16 m.natAbs).map Nat.digitChar)

def hexValue (c : Char) : Option ℕ :=
  if '0' ≤ c ∧ c ≤ '9' then some (c.toNat - '0'.toNat)
  else if 'a' ≤ c ∧ c ≤ 'f' then some (c.toNat - 'a'.toNat + 10)
  else if 'A' ≤ c ∧ c ≤ 'F' then some (c.toNat - 'A'.toNat + 10)
  else none

/-- An unsigned number in base 16: a digit, and behind it digits and white space. -/
def hexNumber : List Char → Option ℤ
  | [] => none
  | c :: s => ((c :: s.filter (!isspace ·)).mapM hexValue).map fun ds => (value 16 ds : ℤ)

/-- `mpz_set_str` in base 16, `none` for the result -1. White space may stand in front of the
number and behind its first digit, but not behind the sign. -/
def mpz_set_str (s : List Char) : Option ℤ :=
  match s.dropWhile isspace with
  | '-' :: ds => (hexNumber ds).map (- ·)
  | ds => hexNumber ds

/-! ## Encryption -/

/-- A stream open for reading: what is left of it, and its end-of-file indicator. -/
structure InFile where
  rest : List UInt8
  eof : Bool

/-- `fread` of single bytes; a read that comes short sets the indicator. -/
def fread (count : ℕ) (infile : InFile) : List UInt8 × InFile :=
  (infile.rest.take count,
    ⟨infile.rest.drop count, infile.eof || decide (infile.rest.length < count)⟩)

/-- The `block_size` of `ss_encrypt_file`. -/
def encryptBlockSize (n : ℕ) : ℕ := (sizeinbase2 n / 2 - 2) / 8

/-- The block after `fread` has put `data` behind its first byte, padded and marked
where the read came short. -/
def fillBlock (block_size : ℕ) (block data : List UInt8) : List UInt8 :=
  let block := block.take 1 ++ data ++ block.drop (1 + data.length)
  if data.length < block_size - 1 then
    let block := block.take (data.length + 1) ++ List.replicate (block_size - data.length - 1) 0
    UInt8.ofNat data.length :: block.drop 1
  else block

/-- `while (message is 0 or 1) message++`. -/
def bump (message : ℤ) : ℤ :=
  if message = 0 ∨ message = 1 then bump (message + 1) else message
termination_by (2 - message).toNat
decreasing_by omega

/-- The loop of `ss_encrypt_file`: the lines it prints. It takes one unit of fuel for
each turn. -/
def encryptLoop (block_size n : ℕ) : ℕ → List UInt8 → InFile → Option (List (List Char))
  | 0, _, _ => none
  | fuel + 1, block, infile =>
      if infile.eof then some []
      else
        let (data, infile) := fread (block_size - 1) infile
        let block := fillBlock block_size block data
        let message := bump (mpz_import block)
        let crypt := ss_encrypt message n
        (encryptLoop block_size n fuel block infile).map (mpz_get_str crypt :: ·)

/-- Every turn but the last reads a byte when blocks have room for one, so the length of
the file bounds the turns. `garbage` is what `malloc` left in the block. -/
def encryptLines (garbage x : List UInt8) (n : ℕ) : Option (List (List Char)) :=
  let block_size := encryptBlockSize n
  let block := 0xFF :: (garbage.take block_size).drop 1
  encryptLoop block_size n (x.length + 2) block ⟨x, false⟩

/-- `fprintf(outfile, "%s\n", crypt_str)` for every line. -/
def ss_encrypt_file (garbage x : List UInt8) (n : ℕ) : Option (List Char) :=
  (encryptLines garbage x n).map fun lines => lines.flatMap (· ++ ['\n'])

/-! ## Decryption -/

/-- The `block_size` of `ss_decrypt_file`. -/
def decryptBlockSize (pq : ℕ) : ℕ := (sizeinbase2 pq - 1) / 8

/-- What `fgets` stores with room for `count` characters: up to and including the first
end of line. -/
def lineOf : ℕ → List Char → List Char
  | 0, _ => []
  | _ + 1, [] => []
  | count + 1, c :: text => if c = '\n' then [c] else c :: lineOf count text

/-- `mpz_export` to `block + 1`, then `fwrite` of `read - 1` bytes from `block + 2`. The
export must fit the block, and `read - 1` must not wrap. -/
def exportBlock (block : List UInt8) (message : ℤ) : Option (List UInt8 × List UInt8) :=
  let bytes := mpz_export message
  if bytes.length + 1 ≤ block.length ∧ bytes ≠ [] then
    let block := block.take 1 ++ bytes ++ block.drop (1 + bytes.length)
    some (block, (block.drop 2).take (bytes.length - 1))
  else none

theorem lineOf_length_pos (count : ℕ) (hc : 0 < count) {text : List Char} (h : text ≠ []) :
    0 < (lineOf count text).length := by
  cases count with
  | zero => omega
  | succ count =>
      cases text with
      | nil => exact absurd rfl h
      | cons c text =>
          simp only [lineOf]
          split <;> simp

/-- The loop of `ss_decrypt_file`: the bytes it writes. -/
def decryptLoop (d : ℤ) (pq : ℕ) (block : List UInt8) (text : List Char) :
    Option (List UInt8) :=
  if text = [] then some []
  else do
    let line := lineOf 1023 text
    let crypt ← mpz_set_str (cString line)
    let message := ss_decrypt crypt d pq
    let (block, out) ← exportBlock block message
    let rest ← decryptLoop d pq block (text.drop line.length)
    some (out ++ rest)
termination_by text.length
decreasing_by
  have hline := lineOf_length_pos 1023 (by omega) ‹_›
  have htext := List.length_pos_iff.mpr ‹text ≠ []›
  simp only [List.length_drop]
  omega

def ss_decrypt_file (text : List Char) (d : ℤ) (pq : ℕ) : Option (List UInt8) :=
  decryptLoop d pq (List.replicate (decryptBlockSize pq) 0) text

end FavoriteAssignments.SchmidtSamoa
