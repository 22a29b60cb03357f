import FavoriteAssignments.SchmidtSamoa.Blocks
import FavoriteAssignments.SchmidtSamoa.KeySize

/-! # Accesses to the block

Which bytes of `block` the two file loops read and write, with the sizes as the `int` they are
computed in. -/

namespace FavoriteAssignments.SchmidtSamoa

open CStrings Positional

/-- A `size_t` as `int`. -/
def toInt (n : ℕ) : ℤ := (n : ℤ).bmod (2 ^ 32)

/-- An `int` as `size_t`. -/
def toSize (i : ℤ) : ℕ := (i % 2 ^ 64).toNat

theorem toInt_eq {n : ℕ} (h : n < 2 ^ 31) : toInt n = n :=
  Int.bmod_eq_of_le (by omega) (by omega)

theorem toSize_eq {i : ℤ} (h0 : 0 ≤ i) (h : i < 2 ^ 64) : toSize i = i.toNat := by
  rw [toSize, Int.emod_eq_of_lt h0 h]

/-- Bytes of the block from an index on. -/
structure Access where
  first : ℤ
  count : ℕ

/-- Every byte has an index of the block. -/
def Access.Inside (block_size : ℤ) (a : Access) : Prop :=
  ∀ i, a.first ≤ i → i < a.first + a.count → 0 ≤ i ∧ i ≤ block_size - 1

theorem Access.inside_of_le {block_size : ℤ} {a : Access} (h0 : 0 ≤ a.first)
    (h : a.first + a.count ≤ block_size) : a.Inside block_size := by
  intro i hi hlt
  omega

/-! ## Encryption -/

/-- The `block_size` of `ss_encrypt_file`. -/
def blockSize (n : ℕ) : ℤ :=
  let block_size := toInt (sizeinbase2 n)
  let block_size := block_size.tdiv 2
  let block_size := block_size - 2
  block_size.tdiv 8

/-- One turn of the loop: the file after it, and its accesses to the block in their order. -/
def turn (block_size : ℤ) (infile : InFile) : InFile × List Access :=
  let (data, infile) := fread (toSize (block_size - 1)) infile
  let read := toInt data.length
  let padding := if read < block_size - 1 then
      [⟨read + 1, toSize (block_size - read - 1)⟩, ⟨0, 1⟩]
    else []
  (infile, ⟨1, data.length⟩ :: padding ++ [⟨0, toSize block_size⟩])

/-- The file after `k` turns. -/
def fileAt (block_size : ℤ) (infile : InFile) (k : ℕ) : InFile :=
  (fun infile => (turn block_size infile).1)^[k] infile

/-- The loop ends, and all accesses are inside: to the first byte, before the loop, and those of
every turn it makes. -/
structure EncryptsInside (n : ℕ) (x : List UInt8) : Prop where
  ends : ∃ k, (fileAt (blockSize n) ⟨x, false⟩ k).eof = true
  mark : Access.Inside (blockSize n) ⟨0, 1⟩
  turns : ∀ k, (fileAt (blockSize n) ⟨x, false⟩ k).eof = false →
    ∀ a ∈ (turn (blockSize n) (fileAt (blockSize n) ⟨x, false⟩ k)).2, a.Inside (blockSize n)

section Encrypt

variable {block_size : ℤ} {x : List UInt8}

theorem toInt_bounds (n : ℕ) : -2 ^ 31 ≤ toInt n ∧ toInt n < 2 ^ 31 := by
  have hge : -(2 ^ 32 / 2) ≤ toInt n := Int.le_bmod (by norm_num)
  have hlt : toInt n < (2 ^ 32 + 1) / 2 := Int.bmod_lt (by norm_num)
  omega

/-- Two bytes and more are left of moduli of 36 bits and more. -/
theorem blockSize_spec (n : ℕ) :
    (2 ≤ blockSize n ↔ 36 ≤ toInt (sizeinbase2 n)) ∧ blockSize n ≤ 2 ^ 31 := by
  have hbounds := toInt_bounds (sizeinbase2 n)
  have htwo : Int.sign 2 = 1 := rfl
  have height : Int.sign 8 = 1 := rfl
  simp only [blockSize, Int.tdiv_eq_ediv, htwo, height]
  split_ifs <;> omega

/-- Below `2 ^ 31` bits the `int` is the size of the blocks that are encrypted. -/
theorem blockSize_eq {n : ℕ} (h : sizeinbase2 n < 2 ^ 31) : blockSize n = encryptBlockSize n := by
  have htwo : Int.sign 2 = 1 := rfl
  have height : Int.sign 8 = 1 := rfl
  simp only [blockSize, encryptBlockSize, toInt_eq h, Int.tdiv_eq_ediv, htwo, height]
  split_ifs <;> omega

theorem fileAt_succ (block_size : ℤ) (infile : InFile) (k : ℕ) :
    fileAt block_size infile (k + 1) = (turn block_size (fileAt block_size infile k)).1 :=
  Function.iterate_succ_apply' _ _ _

theorem turn_file (hbs : 1 ≤ block_size) (hle : block_size ≤ 2 ^ 31) (infile : InFile) :
    (turn block_size infile).1 = (fread (block_size - 1).toNat infile).2 := by
  rw [turn, toSize_eq (by omega) (by omega)]

/-- What is left of the file, while no read has come short. -/
theorem fileAt_eq (hbs : 2 ≤ block_size) (hle : block_size ≤ 2 ^ 31) (k : ℕ)
    (h : (fileAt block_size ⟨x, false⟩ k).eof = false) :
    (fileAt block_size ⟨x, false⟩ k).rest = x.drop ((block_size - 1).toNat * k) ∧
      (block_size - 1).toNat * k ≤ x.length := by
  induction k with
  | zero => simp [fileAt]
  | succ k ih =>
      rw [fileAt_succ, turn_file (by omega) hle] at h ⊢
      simp only [fread, Bool.or_eq_false_iff, decide_eq_false_iff_not, not_lt] at h ⊢
      obtain ⟨hrest, hlen⟩ := ih h.1
      rw [hrest, List.length_drop] at h
      rw [hrest, List.drop_drop, Nat.mul_succ]
      exact ⟨rfl, by omega⟩

/-- Full blocks take at least one byte each from the file. -/
theorem loop_ends (hbs : 2 ≤ block_size) (hle : block_size ≤ 2 ^ 31) :
    ∃ k ≤ x.length + 1, (fileAt block_size ⟨x, false⟩ k).eof = true := by
  by_contra hnever
  push Not at hnever
  have hopen := hnever (x.length + 1) le_rfl
  rw [ne_eq, Bool.not_eq_true] at hopen
  have hlen := (fileAt_eq hbs hle _ hopen).2
  have hmul : 1 * (x.length + 1) ≤ (block_size - 1).toNat * (x.length + 1) :=
    Nat.mul_le_mul_right _ (by omega)
  omega

/-- A read of a block that has a byte for data stays inside, and so does the padding. -/
theorem turn_inside (hbs : 2 ≤ block_size) (hle : block_size ≤ 2 ^ 31) (infile : InFile) :
    ∀ a ∈ (turn block_size infile).2, a.Inside block_size := by
  have hsize := toSize_eq (i := block_size - 1) (by omega) (by omega)
  have hdata : (infile.rest.take (block_size - 1).toNat).length ≤ (block_size - 1).toNat :=
    List.length_take_le _ _
  intro a ha
  simp only [turn, fread, hsize] at ha
  generalize infile.rest.take (block_size - 1).toNat = data at ha hdata
  rw [toInt_eq (by omega)] at ha
  simp only [List.cons_append, List.mem_cons, List.mem_append, List.not_mem_nil, or_false] at ha
  rcases ha with rfl | ha | rfl
  · exact Access.inside_of_le (by norm_num) (by dsimp only; omega)
  · split at ha
    · next hshort =>
        simp only [List.mem_cons, List.not_mem_nil, or_false] at ha
        rcases ha with rfl | rfl
        · apply Access.inside_of_le (by dsimp only; omega)
          dsimp only
          rw [toSize_eq (by omega) (by omega)]
          omega
        · exact Access.inside_of_le le_rfl (by dsimp only; omega)
    · simp at ha
  · apply Access.inside_of_le le_rfl
    dsimp only
    rw [toSize_eq (by omega) (by omega)]
    omega

/-- A block without room for data is read into for ever: `fread` of no bytes never comes to the
end of the file. -/
theorem loop_of_one_byte (x : List UInt8) (k : ℕ) : (fileAt 1 ⟨x, false⟩ k).eof = false := by
  induction k with
  | zero => rfl
  | succ k ih =>
      rw [fileAt_succ, turn_file (by norm_num) (by norm_num)]
      simp [fread, ih]

theorem encryptsInside_iff (n : ℕ) (x : List UInt8) :
    EncryptsInside n x ↔ 36 ≤ toInt (sizeinbase2 n) := by
  obtain ⟨htwo, hle⟩ := blockSize_spec n
  rw [← htwo]
  constructor
  · intro h
    by_contra hsmall
    have hmark := h.mark 0 le_rfl (by norm_num)
    have hone : blockSize n = 1 := by omega
    obtain ⟨k, hk⟩ := h.ends
    rw [hone, loop_of_one_byte] at hk
    exact Bool.false_ne_true hk
  · intro hbs
    obtain ⟨k, -, hk⟩ := loop_ends hbs hle
    exact ⟨⟨k, hk⟩, Access.inside_of_le le_rfl (by dsimp only; omega),
      fun k _ => turn_inside hbs hle _⟩

/-- These are the turns of the loop that prints the lines: it is done when the file is. -/
theorem encryptLoop_isSome_iff {block_size : ℕ} (hbs : 1 ≤ block_size) (hle : block_size ≤ 2 ^ 31)
    (n fuel : ℕ) (block : List UInt8) (infile : InFile) :
    (encryptLoop block_size n fuel block infile).isSome ↔
      ∃ k < fuel, (fileAt block_size infile k).eof = true := by
  have hturn : ∀ infile, (turn block_size infile).1 = (fread (block_size - 1) infile).2 := by
    intro infile
    have hsize : ((block_size : ℤ) - 1).toNat = block_size - 1 := by omega
    rw [turn_file (by omega) (by omega), hsize]
  induction fuel generalizing block infile with
  | zero => simp [encryptLoop]
  | succ fuel ih =>
      rw [encryptLoop]
      split
      · next heof => exact iff_of_true rfl ⟨0, by omega, heof⟩
      · next hopen =>
          rw [Option.isSome_map]
          refine (ih _ _).trans ?_
          rw [← hturn]
          constructor
          · intro h
            obtain ⟨k, hk, heof⟩ := h
            exact ⟨k + 1, by omega, heof⟩
          · intro h
            obtain ⟨k, hk, heof⟩ := h
            cases k with
            | zero => exact absurd heof hopen
            | succ k => exact ⟨k, by omega, heof⟩

/-- Nothing is read into a block without room for data. -/
theorem encryptLoop_none {block_size : ℕ} (hbs : block_size ≤ 1) (n fuel : ℕ)
    (block x : List UInt8) : encryptLoop block_size n fuel block ⟨x, false⟩ = none := by
  have hcount : block_size - 1 = 0 := by omega
  induction fuel generalizing block with
  | zero => rfl
  | succ fuel ih => simp [encryptLoop, fread, hcount, ih]

/-- A file is encrypted, whatever `malloc` left in the block, exactly when the loop ends and all
accesses are inside. -/
theorem encryptLines_isSome_iff {n : ℕ} (h : sizeinbase2 n < 2 ^ 31) (garbage x : List UInt8) :
    (encryptLines garbage x n).isSome ↔ EncryptsInside n x := by
  obtain ⟨htwo, hle⟩ := blockSize_spec n
  rw [encryptsInside_iff, ← htwo]
  rw [blockSize_eq h] at hle ⊢
  by_cases hbs : 2 ≤ (encryptBlockSize n : ℤ)
  · refine iff_of_true ?_ hbs
    obtain ⟨k, hk, heof⟩ := loop_ends (x := x) hbs hle
    exact (encryptLoop_isSome_iff (by omega) (by omega) n _ _ _).mpr ⟨k, by omega, heof⟩
  · refine iff_of_false ?_ hbs
    rw [encryptLines, encryptLoop_none (by omega), Option.isSome_none]
    exact Bool.false_ne_true

variable {G : Type*} {gmp : Gmp G} {time : ℕ → ℕ} {nbits iters random fuel p q n : ℕ}
  {run run' : Run G}

/-- A modulus of `ss_make_pub` encrypts files with no access outside of the block, and comes to
their ends, exactly when it has at least 36 bits, counted in an `int`. These are moduli of all
keys of at least 38 bits and of no key of less than 36. -/
theorem encrypt_file_inside_iff
    (h : ss_make_pub gmp time nbits iters random fuel run = some ((p, q, n), run'))
    (x : List UInt8) :
    (EncryptsInside n x ↔ 36 ≤ toInt (sizeinbase2 n)) ∧
      (1 ≤ blockSize n - 1 ↔ 36 ≤ toInt (sizeinbase2 n)) ∧
      (38 ≤ nbits → nbits < 2 ^ 31 → 36 ≤ toInt (sizeinbase2 n)) ∧
      (nbits < 36 → toInt (sizeinbase2 n) < 36) := by
  obtain ⟨hbits, hp, hq, rfl⟩ := ss_make_pub_sizes h
  obtain ⟨hge, hle⟩ := modulus_size hbits hp hq
  have hspec := (blockSize_spec (p * p * q)).1
  refine ⟨encryptsInside_iff _ x, ?_, ?_, ?_⟩
  · rw [← hspec]
    omega
  · intro h38 hlt
    rw [sizeinbase2, toInt_eq (by omega)]
    omega
  · intro h36
    rw [sizeinbase2, toInt_eq (by omega)]
    omega

/-- A key of 43 bits from the Mersenne primes of 13 and 17 bits. -/
theorem encrypt_file_inside_two_bytes :
    EncryptsInside (8191 * 8191 * 131071) [65, 66] := by
  have hmade : ss_make_pub drawnGmp (fun _ => 0) 43 1 5 1
      (randstate_init drawnGmp (fun _ => 0) none) =
        some ((8191, 131071, 8191 * 8191 * 131071), ⟨0, 5⟩) := by
    decide +kernel
  have hspec := encrypt_file_inside_iff hmade [65, 66]
  exact hspec.1.mpr (hspec.2.2.1 (by norm_num) (by norm_num))

/-- The smallest keys leave no byte even for the mark. -/
theorem no_byte_for_mark :
    (∃ run, ss_make_pub drawnGmp (fun _ => 1700000015) 10 1 1804289383 1
      (randstate_init drawnGmp (fun _ => 1700000015) (some 7)) = some ((5, 13, 325), run)) ∧
      ∀ x, ¬ EncryptsInside 325 x := by
  refine ⟨⟨_, usable_pair_drawn⟩, ?_⟩
  intro x hinside
  have hblock : blockSize 325 = 0 := by decide
  have hmark := hinside.mark 0 le_rfl (by norm_num)
  omega

end Encrypt

/-! ## Decryption -/

/-- The numbers that `ss_decrypt_file` scans, up to a line that is no number. -/
def crypts (text : List Char) : List ℤ :=
  if text = [] then []
  else
    let line := lineOf 1023 text
    match mpz_set_str (cString line) with
    | some crypt => crypt :: crypts (text.drop line.length)
    | none => []
termination_by text.length
decreasing_by
  have hline := lineOf_length_pos 1023 (by omega) ‹_›
  have htext := List.length_pos_iff.mpr ‹text ≠ []›
  simp only [List.length_drop]
  omega

/-- The `block_size` of `ss_decrypt_file`, as the `int` that it is. -/
def decryptBlock (pq : ℕ) : ℤ := toInt (decryptBlockSize pq)

theorem decryptBlock_eq {pq : ℕ} (h : decryptBlockSize pq < 2 ^ 31) :
    decryptBlock pq = decryptBlockSize pq :=
  toInt_eq h

/-- `mpz_export` writes the message from `block + 1` on, and `fwrite` takes `read - 1` bytes
from `block + 2`. -/
structure ExportsInside (block_size message : ℤ) : Prop where
  written : 1 + (mpz_export message).length ≤ block_size
  no_wrap : 1 ≤ (mpz_export message).length
  taken : 2 + ((mpz_export message).length - 1 : ℕ) ≤ block_size

/-- The accesses of all turns of the loop are inside the block. -/
def DecryptsInside (text : List Char) (d : ℤ) (pq : ℕ) : Prop :=
  ∀ crypt ∈ crypts text, ExportsInside (decryptBlock pq) (ss_decrypt crypt d pq)

section Decrypt

variable {text : List Char} {d : ℤ} {pq : ℕ}

theorem mpz_export_length_le_iff {m : ℤ} (hm : 0 ≤ m) (k : ℕ) :
    (mpz_export m).length ≤ k ↔ m < (256 ^ k : ℕ) := by
  rw [mpz_export, List.length_map, numeral_length_le_iff (by norm_num)]
  omega

theorem exportsInside_iff {block_size message : ℤ} (hm : 0 ≤ message) :
    ExportsInside block_size message ↔
      0 < message ∧ message < (256 ^ (block_size - 1).toNat : ℕ) := by
  have hzero := mpz_export_length_le_iff hm 0
  have hfits := mpz_export_length_le_iff hm (block_size - 1).toNat
  rw [pow_zero] at hzero
  constructor
  · intro h
    have hwritten := h.written
    have hpos := h.no_wrap
    omega
  · intro h
    exact ⟨by omega, by omega, by omega⟩

/-- The accesses are inside the block exactly when every number of the file decrypts to one
that is not zero and has a byte less than the block. -/
theorem decrypt_file_inside_iff (hpq : 2 ^ 16 ≤ pq) (text : List Char) (d : ℤ) :
    DecryptsInside text d pq ↔ ∀ crypt ∈ crypts text,
      0 < crypt ^ d.toNat % pq ∧
        crypt ^ d.toNat % pq < (256 ^ (decryptBlock pq - 1).toNat : ℕ) := by
  have hone : (1 : ℤ) < pq := by omega
  refine forall₂_congr fun crypt _ => ?_
  rw [ss_decrypt, pow_mod_toNat crypt d hone]
  exact exportsInside_iff (Int.emod_nonneg _ (by omega))

/-- The private key of the primes 131071 and 524287, with blocks of four bytes. -/
theorem small_key_block : decryptBlock (131071 * 524287) = 4 := by
  rw [decryptBlock_eq (by rw [small_key_blocks.2]; norm_num), small_key_blocks.2]
  rfl

/-- A printed number is scanned from its line. -/
theorem crypts_line {m : ℤ} (hm : 0 ≤ m) (hfit : (mpz_get_str m).length ≤ 1022) (rest : List Char) :
    crypts (mpz_get_str m ++ '\n' :: rest) = m :: crypts rest := by
  have hline := lineOf_line (newline_not_mem_get_str hm) rest (by omega : _ ≤ 1023)
  rw [crypts, if_neg (by simp), hline]
  simp [cString_get_str hm, mpz_set_str_get_str hm]

theorem crypts_single {m : ℤ} (hm : 0 ≤ m) (hlt : m < (16 ^ 16 : ℕ)) :
    crypts (mpz_get_str m ++ ['\n']) = [m] := by
  have hlen := mpz_get_str_length_le hm (by norm_num) hlt
  rw [crypts_line hm (by omega)]
  simp [crypts]

theorem decrypt_file_inside_one_line :
    DecryptsInside (mpz_get_str 65 ++ ['\n']) 1 (131071 * 524287) := by
  refine (decrypt_file_inside_iff (by norm_num) _ 1).mpr ?_
  rw [small_key_block, crypts_single (by norm_num) (by norm_num)]
  intro crypt hcrypt
  rw [List.mem_singleton.mp hcrypt]
  decide

/-- The number 0 decrypts to no bytes at all, and the greatest one to more than the block
holds. -/
theorem exports_outside :
    ¬ DecryptsInside (mpz_get_str 0 ++ ['\n']) 4908103393 (131071 * 524287) ∧
      ¬ DecryptsInside (mpz_get_str (131071 * 524287 - 1) ++ ['\n']) 4908103393
        (131071 * 524287) := by
  have hone : (1 : ℤ) < (131071 * 524287 : ℕ) := by norm_num
  have hroom : (4 - 1 : ℤ).toNat = 3 := rfl
  constructor
  · intro h
    have hinside := h 0 (by simp [crypts_single])
    rw [ss_decrypt, pow_mod_toNat _ _ hone, zero_pow (by norm_num), Int.zero_emod] at hinside
    exact absurd hinside.no_wrap (by simp [mpz_export, numeral])
  · intro h
    have hinside := h (131071 * 524287 - 1) (by simp [crypts_single])
    have hodd : Odd (4908103393 : ℤ).toNat := by decide
    have hminus : (131071 * 524287 - 1 : ℤ) ≡ -1 [ZMOD (131071 * 524287 : ℕ)] := by decide
    have hmessage : (131071 * 524287 - 1 : ℤ) ^ (4908103393 : ℤ).toNat % (131071 * 524287 : ℕ) =
        131071 * 524287 - 1 := by
      have hpow := hminus.pow (4908103393 : ℤ).toNat
      rw [hodd.neg_one_pow] at hpow
      rw [hpow]
      rfl
    rw [ss_decrypt, pow_mod_toNat _ _ hone, hmessage, small_key_block,
      exportsInside_iff (by norm_num), hroom] at hinside
    norm_num at hinside

/-! The loop that writes the file gets through only where its accesses are inside. -/

theorem exportBlock_inside {block block' out : List UInt8} {m : ℤ}
    (h : exportBlock block m = some (block', out)) :
    ExportsInside block.length m ∧ block'.length = block.length := by
  rw [exportBlock] at h
  split at h
  · next hfits =>
      have hpos := List.length_pos_iff.mpr hfits.2
      simp only [Option.some.injEq, Prod.mk.injEq] at h
      obtain ⟨rfl, -⟩ := h
      refine ⟨⟨by omega, hpos, by omega⟩, ?_⟩
      simp only [List.length_append, List.length_take, List.length_drop]
      omega
  · simp at h

theorem decryptLoop_inside {block out : List UInt8} (h : decryptLoop d pq block text = some out) :
    ∀ crypt ∈ crypts text, ExportsInside block.length (ss_decrypt crypt d pq) := by
  fun_induction crypts text generalizing block out with
  | case1 => simp
  | case2 text htext line crypt hcrypt =>
      rename_i ih
      rw [decryptLoop, if_neg htext] at h
      simp only [Option.bind_eq_bind, Option.bind_eq_some_iff, Prod.exists] at h
      obtain ⟨crypt', hcrypt', block', out', hexport, rest, hrest, -⟩ := h
      obtain rfl := Option.some.inj (hcrypt'.symm.trans hcrypt)
      obtain ⟨hinside, hlength⟩ := exportBlock_inside hexport
      have hnext := ih hrest
      rw [hlength] at hnext
      intro crypt hmem
      rcases List.mem_cons.mp hmem with rfl | hmem
      · exact hinside
      · exact hnext crypt hmem
  | case3 => simp

theorem ss_decrypt_file_inside (hpq : decryptBlockSize pq < 2 ^ 31) {out : List UInt8}
    (h : ss_decrypt_file text d pq = some out) : DecryptsInside text d pq := by
  have hinside := decryptLoop_inside h
  rw [List.length_replicate, ← decryptBlock_eq hpq] at hinside
  exact hinside

end Decrypt

end FavoriteAssignments.SchmidtSamoa
