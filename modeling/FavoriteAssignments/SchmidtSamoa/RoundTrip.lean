import FavoriteAssignments.SchmidtSamoa.File
import Mathlib.Tactic.Positivity
import Mathlib.Tactic.NormNum.Prime

/-! # The round trip of a file

What a file becomes when it is encrypted block by block and decrypted line by
line. Full blocks come back; the padding of a short last block comes back too. -/

namespace FavoriteAssignments.SchmidtSamoa

open CStrings Positional

/-! ## Bytes -/

theorem map_toNat_lt (bytes : List UInt8) : ∀ d ∈ bytes.map UInt8.toNat, d < 256 := by
  intro d hd
  obtain ⟨b, -, rfl⟩ := List.mem_map.mp hd
  exact b.toNat_lt

/-- Leading zero bytes are lost. -/
theorem mpz_export_import (bytes : List UInt8) :
    mpz_export (mpz_import bytes) = bytes.dropWhile (· == 0) := by
  have hzero : ((fun d : ℕ => d == 0) ∘ UInt8.toNat) = fun b : UInt8 => b == 0 := by
    funext b
    rw [Bool.eq_iff_iff]
    simp [← UInt8.toNat_inj]
  have hid : UInt8.ofNat ∘ UInt8.toNat = id := by
    funext b
    simp
  simp only [mpz_export, mpz_import, Int.natAbs_natCast]
  rw [numeral_value (by omega) (map_toNat_lt bytes), List.dropWhile_map, hzero, List.map_map, hid,
    List.map_id]

theorem mpz_import_nonneg (bytes : List UInt8) : 0 ≤ mpz_import bytes :=
  Int.natCast_nonneg _

theorem mpz_import_lt (bytes : List UInt8) : mpz_import bytes < (256 ^ bytes.length : ℕ) := by
  have hlt := value_lt (by omega) (map_toNat_lt bytes)
  rw [List.length_map] at hlt
  exact Int.ofNat_lt.mpr hlt

theorem mpz_import_cons (b : UInt8) (bytes : List UInt8) :
    mpz_import (b :: bytes) = mpz_import bytes + 256 ^ bytes.length * b.toNat := by
  simp [mpz_import, value_cons]

theorem mpz_import_append_zeros (bytes : List UInt8) (k : ℕ) :
    mpz_import (bytes ++ List.replicate k 0) = 256 ^ k * mpz_import bytes := by
  simp [mpz_import, value_append, value_replicate_zero]

theorem mpz_import_dropWhile (bytes : List UInt8) :
    mpz_import (bytes.dropWhile (· == 0)) = mpz_import bytes := by
  induction bytes with
  | nil => rfl
  | cons b bytes ih =>
      by_cases hb : b = 0
      · simp [hb, ih, mpz_import_cons]
      · simp [hb]

/-! ## Text -/

theorem hexValue_digitChar : ∀ d < 16, hexValue (Nat.digitChar d) = some d := by decide

theorem digitChar_plain : ∀ d < 16, isspace (Nat.digitChar d) = false ∧
    Nat.digitChar d ≠ '-' ∧ Nat.digitChar d ≠ '\n' ∧ Nat.digitChar d ≠ '\x00' := by decide

theorem mpz_get_str_nonneg {m : ℤ} (hm : 0 ≤ m) :
    ∃ ds : List ℕ, ds ≠ [] ∧ (∀ d ∈ ds, d < 16) ∧ (value 16 ds : ℤ) = m ∧
      mpz_get_str m = ds.map Nat.digitChar := by
  by_cases hzero : m = 0
  · exact ⟨[0], by simp, by simp, by simp [hzero, value_cons], by simp [mpz_get_str, hzero]⟩
  · refine ⟨numeral 16 m.natAbs, numeral_ne_nil (by omega), numeral_lt (by omega), ?_, ?_⟩
    · rw [value_numeral]
      omega
    · simp [mpz_get_str, hzero, hm]

theorem mapM_hexValue {ds : List ℕ} (h : ∀ d ∈ ds, d < 16) :
    (ds.map Nat.digitChar).mapM hexValue = some ds := by
  induction ds with
  | nil => rfl
  | cons d ds ih =>
      have hd := hexValue_digitChar d (h d (by simp))
      simp [hd, ih fun e he => h e (List.mem_cons_of_mem _ he)]

/-- Digits read as the number they stand for, with or without the end of their line. -/
theorem mpz_set_str_digits {ds : List ℕ} (hne : ds ≠ []) (hlt : ∀ d ∈ ds, d < 16)
    {ending : List Char} (hending : ∀ c ∈ ending, isspace c = true) :
    mpz_set_str (ds.map Nat.digitChar ++ ending) = some (value 16 ds : ℤ) := by
  obtain ⟨d, ds, rfl⟩ := List.exists_cons_of_ne_nil hne
  obtain ⟨hspace, hminus, -, -⟩ := digitChar_plain d (hlt d List.mem_cons_self)
  have hfilter : (ds.map Nat.digitChar ++ ending).filter (!isspace ·) = ds.map Nat.digitChar := by
    rw [List.filter_append, List.filter_eq_self.mpr, List.filter_eq_nil_iff.mpr, List.append_nil]
    · simpa using hending
    · intro c hc
      obtain ⟨e, he, rfl⟩ := List.mem_map.mp hc
      simp [(digitChar_plain e (hlt e (List.mem_cons_of_mem _ he))).1]
  have hnumber : hexNumber (Nat.digitChar d :: (ds.map Nat.digitChar ++ ending)) =
      some (value 16 (d :: ds) : ℤ) := by
    rw [hexNumber, hfilter, ← List.map_cons, mapM_hexValue hlt, Option.map_some]
  rw [List.map_cons, List.cons_append, mpz_set_str, List.dropWhile_cons_of_neg (by simp [hspace])]
  split
  · next hsign => exact absurd (List.cons.inj hsign).1 hminus
  · exact hnumber

/-- A printed line reads back. -/
theorem mpz_set_str_get_str {m : ℤ} (hm : 0 ≤ m) :
    mpz_set_str (mpz_get_str m ++ ['\n']) = some m := by
  obtain ⟨ds, hne, hlt, hval, hstr⟩ := mpz_get_str_nonneg hm
  have hending : ∀ c ∈ ['\n'], isspace c = true := by simp [isspace]
  rw [hstr, mpz_set_str_digits hne hlt hending, hval]

/-- A form feed in front is skipped, a blank behind the sign is not. -/
example : mpz_set_str ['\x0c', '0', '\n'] = some 0 ∧ mpz_set_str ['-', ' ', '5'] = none := by
  decide

theorem mpz_get_str_length_le {m : ℤ} {k : ℕ} (hm : 0 ≤ m) (hk : 1 ≤ k) (hlt : m < (16 ^ k : ℕ)) :
    (mpz_get_str m).length ≤ k := by
  by_cases hzero : m = 0
  · simpa [mpz_get_str, hzero] using hk
  · have hlen : (numeral 16 m.natAbs).length ≤ k := (numeral_length_le_iff (by omega)).mpr (by omega)
    simpa [mpz_get_str, hzero, not_lt.mpr hm] using hlen

theorem newline_not_mem_get_str {m : ℤ} (hm : 0 ≤ m) : '\n' ∉ mpz_get_str m := by
  obtain ⟨ds, -, hlt, -, hstr⟩ := mpz_get_str_nonneg hm
  rw [hstr]
  intro hmem
  obtain ⟨d, hd, heq⟩ := List.mem_map.mp hmem
  exact (digitChar_plain d (hlt d hd)).2.2.1 heq

theorem nul_not_mem_get_str {m : ℤ} (hm : 0 ≤ m) : '\x00' ∉ mpz_get_str m := by
  obtain ⟨ds, -, hlt, -, hstr⟩ := mpz_get_str_nonneg hm
  rw [hstr]
  intro hmem
  obtain ⟨d, hd, heq⟩ := List.mem_map.mp hmem
  exact (digitChar_plain d (hlt d hd)).2.2.2 heq

/-- A printed line has no NUL that would cut it. -/
theorem cString_get_str {m : ℤ} (hm : 0 ≤ m) :
    cString (mpz_get_str m ++ ['\n']) = mpz_get_str m ++ ['\n'] :=
  cString_eq (by simp [nul_not_mem_get_str hm])

/-- `fgets` returns a line that fits its buffer. -/
theorem lineOf_line {line : List Char} (hline : '\n' ∉ line) (text : List Char) {count : ℕ}
    (hfit : line.length + 1 ≤ count) : lineOf count (line ++ '\n' :: text) = line ++ ['\n'] := by
  induction line generalizing count with
  | nil =>
      cases count with
      | zero => omega
      | succ count => simp [lineOf]
  | cons c line ih =>
      simp only [List.mem_cons, not_or] at hline
      cases count with
      | zero => omega
      | succ count =>
          have hrest : lineOf count (line ++ '\n' :: text) = line ++ ['\n'] :=
            ih hline.2 (by simpa using hfit)
          simp [lineOf, Ne.symm hline.1, hrest]

/-! ## Encryption as a list of messages -/

/-- The block a short read leaves. -/
def lastBlock (block_size : ℕ) (x : List UInt8) : List UInt8 :=
  UInt8.ofNat x.length :: (x ++ List.replicate (block_size - x.length - 1) 0)

/-- The numbers `ss_encrypt_file` encrypts, one for each block. -/
def messages (block_size : ℕ) (x : List UInt8) : List ℤ :=
  if x.length < block_size - 1 ∨ block_size < 2 then [bump (mpz_import (lastBlock block_size x))]
  else bump (mpz_import (0xFF :: x.take (block_size - 1))) ::
    messages block_size (x.drop (block_size - 1))
termination_by x.length
decreasing_by simp only [List.length_drop]; omega

theorem fillBlock_short {block_size : ℕ} {block data : List UInt8} (hblock : block ≠ [])
    (hdata : data.length < block_size - 1) :
    fillBlock block_size block data = lastBlock block_size data := by
  obtain ⟨b, rest, rfl⟩ := List.exists_cons_of_ne_nil hblock
  simp [fillBlock, lastBlock, hdata]

theorem fillBlock_full {block_size : ℕ} {rest data : List UInt8}
    (hblock : rest.length ≤ block_size - 1) (hdata : data.length = block_size - 1) :
    fillBlock block_size (0xFF :: rest) data = 0xFF :: data := by
  have hdrop : rest.drop data.length = [] := List.drop_eq_nil_of_le (by omega)
  simp [fillBlock, hdata, Nat.add_comm 1] at hdrop ⊢
  exact hdrop

theorem encryptLoop_eq (n : ℕ) {block_size : ℕ} (hbs : 2 ≤ block_size) (x : List UInt8)
    {fuel : ℕ} (hfuel : x.length + 2 ≤ fuel) {rest : List UInt8}
    (hrest : rest.length ≤ block_size - 1) :
    encryptLoop block_size n fuel (0xFF :: rest) ⟨x, false⟩ =
      some ((messages block_size x).map fun m => mpz_get_str (ss_encrypt m n)) := by
  fun_induction messages block_size x generalizing fuel rest with
  | case1 x hshort =>
      obtain ⟨fuel, rfl⟩ : ∃ k, fuel = k + 2 := ⟨fuel - 2, by omega⟩
      have hlt : x.length < block_size - 1 := by omega
      have htake : x.take (block_size - 1) = x := List.take_of_length_le (by omega)
      simp [encryptLoop, fread, htake, hlt, fillBlock_short]
  | case2 x hlong ih =>
      obtain ⟨fuel, rfl⟩ : ∃ k, fuel = k + 1 := ⟨fuel - 1, by omega⟩
      have hge : block_size - 1 ≤ x.length := by omega
      have hlen : (x.take (block_size - 1)).length = block_size - 1 := by
        simp [hge]
      have hfuel' : (x.drop (block_size - 1)).length + 2 ≤ fuel := by
        simp only [List.length_drop]
        omega
      have hnext := ih hfuel' hlen.le
      have heof : decide (x.length < block_size - 1) = false := by simp [hge]
      simp [encryptLoop, fread, heof, fillBlock_full hrest hlen, hnext]

/-! ## Decryption of the lines of messages -/

/-- What the decrypting loop writes for a list of messages. -/
def decoded (block_size : ℕ) : List ℤ → Option (List UInt8)
  | [] => some []
  | m :: ms =>
      if (mpz_export m).length + 1 ≤ block_size ∧ mpz_export m ≠ [] then
        (decoded block_size ms).map ((mpz_export m).tail ++ ·)
      else none

theorem exportBlock_eq {block : List UInt8} (hblock : block ≠ []) (m : ℤ) :
    exportBlock block m =
      if (mpz_export m).length + 1 ≤ block.length ∧ mpz_export m ≠ [] then
        some (block.take 1 ++ mpz_export m ++ block.drop (1 + (mpz_export m).length),
          (mpz_export m).tail)
      else none := by
  obtain ⟨b, rest, rfl⟩ := List.exists_cons_of_ne_nil hblock
  simp only [exportBlock]
  split
  · rename_i hfits
    obtain ⟨c, bytes, hbytes⟩ := List.exists_cons_of_ne_nil hfits.2
    have hlen : bytes.length < rest.length := by simpa [hbytes] using hfits.1
    simp [hbytes]
  · rfl

/-- Decrypting the printed lines of messages that survive encryption. -/
theorem decryptLoop_lines (n : ℕ) (d : ℤ) (pq : ℕ) (ms : List ℤ) (block : List UInt8)
    (hblock : block ≠ [])
    (hms : ∀ m ∈ ms, 0 ≤ ss_encrypt m n ∧ ss_decrypt (ss_encrypt m n) d pq = m ∧
      (mpz_get_str (ss_encrypt m n)).length + 2 ≤ 1024) :
    decryptLoop d pq block ((ms.map fun m => mpz_get_str (ss_encrypt m n)).flatMap (· ++ ['\n'])) =
      decoded block.length ms := by
  induction ms generalizing block with
  | nil => simp [decryptLoop, decoded]
  | cons m ms ih =>
      obtain ⟨hnonneg, hdec, hfit⟩ := hms m (by simp)
      have hbound : (mpz_get_str (ss_encrypt m n)).length + 1 ≤ 1023 := by omega
      have hline := lineOf_line (newline_not_mem_get_str hnonneg)
        ((ms.map fun m => mpz_get_str (ss_encrypt m n)).flatMap (· ++ ['\n'])) hbound
      rw [decryptLoop]
      simp only [List.map_cons, List.flatMap_cons, List.append_assoc, List.singleton_append]
      rw [if_neg (by simp), hline]
      simp only [cString_get_str hnonneg, mpz_set_str_get_str hnonneg, Option.bind_eq_bind,
        Option.bind_some, hdec, exportBlock_eq hblock, decoded]
      split
      · rename_i hfits
        have hlen : (block.take 1 ++ mpz_export m ++
            block.drop (1 + (mpz_export m).length)).length = block.length := by
          have hpos := List.length_pos_iff.mpr hblock
          simp only [List.length_append, List.length_take, List.length_drop]
          omega
        have hnext := ih (block.take 1 ++ mpz_export m ++
          block.drop (1 + (mpz_export m).length)) (by simp [hfits.2])
          (fun m' hm => hms m' (List.mem_cons_of_mem _ hm))
        rw [hlen, List.append_assoc] at hnext
        simp [hnext, Option.map_eq_bind]
      · rfl

/-! ## Sizes -/

section Sizes

variable {p q : ℕ}

/-- The private modulus has at least half the bits of the public one. -/
theorem two_pow_half_le (hp : 2 ≤ p) (hq : 2 ≤ q) : 2 ^ ((p ^ 2 * q).size / 2) ≤ p * q := by
  have hpos : 0 < (p ^ 2 * q).size := Nat.size_pos.mpr (by positivity)
  have hlow : 2 ^ ((p ^ 2 * q).size - 1) ≤ p ^ 2 * q := Nat.lt_size.mp (by omega)
  by_contra hlt
  have hsquare : (p * q) * (p * q) < 2 ^ ((p ^ 2 * q).size / 2) * 2 ^ ((p ^ 2 * q).size / 2) :=
    Nat.mul_lt_mul'' (by omega) (by omega)
  rw [← pow_add] at hsquare
  have hle : 2 ^ ((p ^ 2 * q).size / 2 + (p ^ 2 * q).size / 2) ≤ 2 ^ (p ^ 2 * q).size :=
    Nat.pow_le_pow_right (by omega) (by omega)
  have htwice : 2 ^ (p ^ 2 * q).size = 2 * 2 ^ ((p ^ 2 * q).size - 1) := by
    rw [← pow_succ', Nat.sub_add_cancel hpos]
  have hq2 : 2 * (p ^ 2 * q) ≤ q * (p ^ 2 * q) := Nat.mul_le_mul_right _ hq
  have hsame : (p * q) * (p * q) = q * (p ^ 2 * q) := by ring
  omega

theorem sizeinbase2_eq {n : ℕ} (hn : 0 < n) : sizeinbase2 n = n.size :=
  max_eq_right (Nat.size_pos.mpr hn)

/-- A block is a number below the private modulus. -/
theorem encrypt_block_le (hp : 2 ≤ p) (hq : 2 ≤ q) : 256 ^ encryptBlockSize (p ^ 2 * q) ≤ p * q := by
  have hpos : 0 < p ^ 2 * q := by positivity
  rw [encryptBlockSize, sizeinbase2_eq hpos]
  calc 256 ^ (((p ^ 2 * q).size / 2 - 2) / 8)
      = 2 ^ (8 * (((p ^ 2 * q).size / 2 - 2) / 8)) := by rw [pow_mul]; norm_num
    _ ≤ 2 ^ ((p ^ 2 * q).size / 2) := Nat.pow_le_pow_right (by omega) (by omega)
    _ ≤ p * q := two_pow_half_le hp hq

/-- Both block sizes against the private modulus: a block is a number below it, and the
decrypting side has room for at least two bytes. -/
theorem block_sizes (hp : 2 ≤ p) (hq : 2 ≤ q) (hbs : 2 ≤ encryptBlockSize (p ^ 2 * q)) :
    256 ^ encryptBlockSize (p ^ 2 * q) ≤ p * q ∧ 2 ≤ decryptBlockSize (p * q) := by
  refine ⟨encrypt_block_le hp hq, ?_⟩
  have hpos : 0 < p ^ 2 * q := by positivity
  have hsize : (p ^ 2 * q).size / 2 < (p * q).size := Nat.lt_size.mpr (two_pow_half_le hp hq)
  rw [encryptBlockSize, sizeinbase2_eq hpos] at hbs
  simp only [decryptBlockSize, sizeinbase2]
  omega

end Sizes

/-! ## One block -/

theorem bump_eq {m : ℤ} (hm : 2 ≤ m) : bump m = m := by
  unfold bump
  rw [if_neg (by omega)]

theorem bump_small {m : ℤ} (h0 : 0 ≤ m) (hm : m < 2) : bump m = 2 := by
  have hone : bump 1 = 2 := by
    rw [bump, if_pos (by omega)]
    exact bump_eq (by omega)
  rcases (by omega : m = 0 ∨ m = 1) with rfl | rfl
  · rw [bump, if_pos (by omega)]
    exact hone
  · exact hone

/-- A full block comes back as it is. -/
theorem mpz_export_full (data : List UInt8) :
    mpz_export (bump (mpz_import (0xFF :: data))) = 0xFF :: data := by
  have hlarge : 2 ≤ mpz_import (0xFF :: data) := by
    have hpow : (1 : ℤ) ≤ 256 ^ data.length := one_le_pow₀ (by norm_num)
    have hrest := mpz_import_nonneg data
    rw [mpz_import_cons]
    have hbyte : ((0xFF : UInt8).toNat : ℤ) = 255 := rfl
    rw [hbyte]
    omega
  rw [bump_eq hlarge, mpz_export_import]
  simp

/-- Shifting digits up by whole places cannot put a nonzero digit in front of them. -/
theorem shifted_ne {v c r z : ℕ} (hv : v < 256 ^ r) (hc : c ≠ 0) (hz : z ≠ 0) :
    256 ^ z * v ≠ v + 256 ^ r * c := by
  intro heq
  have hpos : 1 ≤ 256 ^ z := Nat.one_le_pow _ _ (by omega)
  have hprod : (256 ^ z - 1) * v = 256 ^ r * c := by
    rw [Nat.sub_mul]
    omega
  have hodd : Odd (256 ^ z - 1) := by
    have heven : Even (256 ^ z) := (by decide : Even 256).pow_of_ne_zero hz
    exact Nat.Even.sub_odd hpos heven odd_one
  have hcop : Nat.Coprime (256 ^ r) (256 ^ z - 1) := by
    have h256 : (256 : ℕ) = 2 ^ 8 := by norm_num
    rw [h256, ← pow_mul]
    rw [h256] at hodd
    exact Nat.Coprime.pow_left _ (Nat.coprime_two_left.mpr hodd)
  have hdvd : 256 ^ r ∣ v := hcop.dvd_of_dvd_mul_left ⟨c, hprod⟩
  have hzero : v = 0 := Nat.eq_zero_of_dvd_of_lt hdvd hv
  rw [hzero] at hprod
  have : 256 ^ r * c ≠ 0 := Nat.mul_ne_zero (by positivity) hc
  omega

/-- Padding, with the leading zeros and one more byte taken off, is not the data. -/
theorem tail_dropWhile_padded_ne {x : List UInt8} (hx : x ≠ []) {z : ℕ} (hz : z ≠ 0) :
    ((x ++ List.replicate z 0).dropWhile (· == 0)).tail ≠ x := by
  intro htail
  have himport := mpz_import_dropWhile (x ++ List.replicate z 0)
  have hhead := List.head_dropWhile_not (· == (0 : UInt8)) (l := x ++ List.replicate z 0)
  cases hdrop : (x ++ List.replicate z 0).dropWhile (· == 0) with
  | nil =>
      rw [hdrop] at htail
      exact hx htail.symm
  | cons c rest =>
      simp only [hdrop, List.tail_cons] at htail himport hhead
      have hc : c.toNat ≠ 0 := by
        have hne := hhead (by simp)
        simpa [← UInt8.toNat_inj] using hne
      rw [htail, mpz_import_cons, mpz_import_append_zeros] at himport
      refine shifted_ne (v := value 256 (x.map UInt8.toNat)) (r := x.length) ?_ hc hz ?_
      · simpa using value_lt (by omega) (map_toNat_lt x)
      · simp only [mpz_import] at himport
        exact_mod_cast himport.symm

/-- A short block never comes back as its data. -/
theorem short_block_ne {block_size : ℕ} {x : List UInt8} (hx : x ≠ [])
    (hlen : x.length < block_size - 1) :
    (mpz_export (bump (mpz_import (lastBlock block_size x)))).tail ≠ x := by
  by_cases hsmall : mpz_import (lastBlock block_size x) < 2
  · rw [bump_small (mpz_import_nonneg _) hsmall]
    have htwo : mpz_export 2 = [2] := by simp [mpz_export, numeral]
    rw [htwo]
    exact hx.symm
  · rw [bump_eq (by omega), mpz_export_import, lastBlock]
    by_cases hmark : UInt8.ofNat x.length = 0
    · rw [hmark]
      simpa using tail_dropWhile_padded_ne hx (z := block_size - x.length - 1) (by omega)
    · intro heq
      have hlength := congrArg List.length heq
      simp [hmark] at hlength
      omega

/-- The block of an empty last read decrypts to nothing. -/
theorem mpz_export_empty_block {block_size : ℕ} :
    mpz_export (bump (mpz_import (lastBlock block_size []))) = [2] := by
  have hzero : mpz_import (lastBlock block_size []) = 0 := by
    have hmap : lastBlock block_size [] = [] ++ List.replicate (block_size - 1 + 1) 0 := by
      simp [lastBlock, List.replicate_succ]
    rw [hmap, mpz_import_append_zeros]
    simp [mpz_import]
  rw [hzero, bump_small (by omega) (by omega)]
  simp [mpz_export, numeral]

/-! ## All blocks -/

/-- The messages of a file decode to the file exactly when no block is short and, if
there is a full block, it fits the decrypting side's block. -/
theorem decoded_messages_iff {block_size dec_size : ℕ} (hbs : 2 ≤ block_size)
    (hdec : 2 ≤ dec_size) (x : List UInt8) :
    decoded dec_size (messages block_size x) = some x ↔
      block_size - 1 ∣ x.length ∧ (x = [] ∨ block_size + 1 ≤ dec_size) := by
  fun_induction messages block_size x with
  | case1 x hshort =>
      have hlt : x.length < block_size - 1 := by omega
      by_cases hx : x = []
      · subst hx
        simp [decoded, mpz_export_empty_block, hdec]
      · have hnot : ¬ block_size - 1 ∣ x.length := by
          intro hdvd
          have := Nat.le_of_dvd (List.length_pos_iff.mpr hx) hdvd
          omega
        have hne := short_block_ne hx hlt
        simp only [decoded, hnot, false_and, iff_false]
        split
        · simpa using hne
        · simp
  | case2 x hlong ih =>
      have hge : block_size - 1 ≤ x.length := by omega
      have hx : x ≠ [] := by
        rintro rfl
        simp only [List.length_nil] at hge
        omega
      have hfull := mpz_export_full (x.take (block_size - 1))
      have hlen : (x.take (block_size - 1)).length = block_size - 1 := by simp [hge]
      have hdvd : block_size - 1 ∣ (x.drop (block_size - 1)).length ↔
          block_size - 1 ∣ x.length := by
        rw [List.length_drop]
        exact (Nat.dvd_sub_iff_left hge (dvd_refl _))
      have hsplit : ∀ y : List UInt8,
          x.take (block_size - 1) ++ y = x ↔ y = x.drop (block_size - 1) := by
        intro y
        constructor
        · intro h
          exact List.append_cancel_left (h.trans (List.take_append_drop (block_size - 1) x).symm)
        · rintro rfl
          exact List.take_append_drop _ _
      simp only [decoded, hfull, List.length_cons, hlen, List.tail_cons]
      by_cases hfit : block_size + 1 ≤ dec_size
      · rw [if_pos ⟨by omega, by simp⟩]
        simp only [hfit, or_true, and_true] at ih ⊢
        rw [← hdvd, ← ih]
        cases decoded dec_size (messages block_size (x.drop (block_size - 1))) with
        | none => simp
        | some y => simp [hsplit]
      · rw [if_neg (by omega)]
        simp [hx, hfit]

/-! ## The file -/

section File

variable {p q : ℕ}

theorem bump_import_bounds {block_size : ℕ} (hbs : 1 ≤ block_size) {block : List UInt8}
    (hlen : block.length = block_size) :
    1 < bump (mpz_import block) ∧ bump (mpz_import block) < (256 ^ block_size : ℕ) := by
  have h0 := mpz_import_nonneg block
  have hlt := mpz_import_lt block
  rw [hlen] at hlt
  have hbyte : 256 ^ 1 ≤ 256 ^ block_size := Nat.pow_le_pow_right (by omega) hbs
  by_cases hsmall : mpz_import block < 2
  · rw [bump_small h0 hsmall]
    omega
  · rw [bump_eq (by omega)]
    exact ⟨by omega, hlt⟩

theorem messages_bounds {block_size : ℕ} (hbs : 2 ≤ block_size) (x : List UInt8) :
    ∀ m ∈ messages block_size x, 1 < m ∧ m < (256 ^ block_size : ℕ) := by
  fun_induction messages block_size x with
  | case1 x hshort =>
      intro m hm
      rw [List.mem_singleton.mp hm]
      exact bump_import_bounds (by omega) (by simp [lastBlock]; omega)
  | case2 x hlong ih =>
      intro m hm
      rcases List.mem_cons.mp hm with rfl | hm
      · exact bump_import_bounds (by omega) (by simp; omega)
      · exact ih m hm

theorem encryptLines_eq {n : ℕ} (hbs : 2 ≤ encryptBlockSize n) (garbage x : List UInt8) :
    encryptLines garbage x n =
      some ((messages (encryptBlockSize n) x).map fun m => mpz_get_str (ss_encrypt m n)) :=
  encryptLoop_eq n hbs x (le_refl _) (by simp; omega)

theorem ss_encrypt_bounds {n : ℕ} (hn : 1 < n) (m : ℤ) :
    0 ≤ ss_encrypt m n ∧ ss_encrypt m n < n := by
  rw [ss_encrypt, pow_mod_eq m (Int.natCast_nonneg _) (by exact_mod_cast hn)]
  exact ⟨Int.emod_nonneg _ (by omega), Int.emod_lt_of_pos _ (by omega)⟩

/-- Under a modulus of at most 1022 hexadecimal digits every line fits. -/
theorem lines_fit {n : ℕ} (hn : 1 < n) (hbs : 2 ≤ encryptBlockSize n) (hle : n ≤ 16 ^ 1022)
    (garbage x : List UInt8) : ∀ lines, encryptLines garbage x n = some lines →
      ∀ line ∈ lines, line.length + 2 ≤ 1024 := by
  intro lines hlines line hmem
  rw [encryptLines_eq hbs] at hlines
  obtain rfl := Option.some.inj hlines
  obtain ⟨m, -, rfl⟩ := List.mem_map.mp hmem
  obtain ⟨h0, hlt⟩ := ss_encrypt_bounds hn m
  have hlen := mpz_get_str_length_le h0 (k := 1022) (by omega)
    (hlt.trans_le (by exact_mod_cast hle))
  omega

theorem one_lt_modulus (hp : p.Prime) (hq : q.Prime) : 1 < p ^ 2 * q := by
  have hsquare : 1 * 2 ≤ p ^ 2 * q := Nat.mul_le_mul (Nat.one_le_pow _ _ hp.pos) hq.two_le
  omega

/-- An encrypted file decrypts to what its messages decode to. -/
theorem ss_file_decoded (hp : p.Prime) (hq : q.Prime) (hne : p ≠ q) {d : ℤ} (hd : 0 ≤ d)
    (hinv : d * (p ^ 2 * q : ℕ) ≡ 1 [ZMOD (Nat.lcm (p - 1) (q - 1) : ℕ)])
    (hbs : 2 ≤ encryptBlockSize (p ^ 2 * q)) (garbage x : List UInt8)
    (hfit : ∀ lines, encryptLines garbage x (p ^ 2 * q) = some lines →
      ∀ line ∈ lines, line.length + 2 ≤ 1024) :
    ∃ text, ss_encrypt_file garbage x (p ^ 2 * q) = some text ∧
      ss_decrypt_file text d (p * q) =
        decoded (decryptBlockSize (p * q)) (messages (encryptBlockSize (p ^ 2 * q)) x) := by
  obtain ⟨hpow, hdec⟩ := block_sizes hp.two_le hq.two_le hbs
  have hlines := encryptLines_eq hbs garbage x
  have hms : ∀ m ∈ messages (encryptBlockSize (p ^ 2 * q)) x,
      0 ≤ ss_encrypt m (p ^ 2 * q : ℕ) ∧
        ss_decrypt (ss_encrypt m (p ^ 2 * q : ℕ)) d (p * q : ℕ) = m ∧
        (mpz_get_str (ss_encrypt m (p ^ 2 * q : ℕ))).length + 2 ≤ 1024 := by
    intro m hm
    obtain ⟨h1, hlt⟩ := messages_bounds hbs x m hm
    refine ⟨(ss_encrypt_bounds (one_lt_modulus hp hq) m).1,
      decrypt_encrypt_of_inverse hp hq hne hd hinv (by omega) ?_, ?_⟩
    · exact hlt.trans_le (by exact_mod_cast hpow)
    · exact hfit _ hlines _ (List.mem_map.mpr ⟨m, hm, rfl⟩)
  have hloop := decryptLoop_lines (p ^ 2 * q) d (p * q) _
    (List.replicate (decryptBlockSize (p * q)) 0) (by simp; omega) hms
  rw [List.length_replicate] at hloop
  exact ⟨_, by rw [ss_encrypt_file, hlines, Option.map_some], hloop⟩

/-- Decrypting an encrypted file gives the file back exactly when its length is a
multiple of the data bytes of a block and it is empty or the block fits. -/
theorem ss_file_round_trip_iff (hp : p.Prime) (hq : q.Prime) (hne : p ≠ q) {d : ℤ} (hd : 0 ≤ d)
    (hinv : d * (p ^ 2 * q : ℕ) ≡ 1 [ZMOD (Nat.lcm (p - 1) (q - 1) : ℕ)])
    (hbs : 2 ≤ encryptBlockSize (p ^ 2 * q)) (garbage x : List UInt8)
    (hfit : ∀ lines, encryptLines garbage x (p ^ 2 * q) = some lines →
      ∀ line ∈ lines, line.length + 2 ≤ 1024) :
    (∃ text, ss_encrypt_file garbage x (p ^ 2 * q) = some text ∧
        ss_decrypt_file text d (p * q) = some x) ↔
      encryptBlockSize (p ^ 2 * q) - 1 ∣ x.length ∧
        (x = [] ∨ encryptBlockSize (p ^ 2 * q) + 1 ≤ decryptBlockSize (p * q)) := by
  obtain ⟨-, hdec⟩ := block_sizes hp.two_le hq.two_le hbs
  obtain ⟨text, htext, hdecoded⟩ := ss_file_decoded hp hq hne hd hinv hbs garbage x hfit
  rw [← decoded_messages_iff hbs hdec x, ← hdecoded]
  simp [htext]

/-! ## A key with blocks of two data bytes -/

theorem size_eq {n k : ℕ} (hlow : 2 ^ k ≤ n) (hhigh : n < 2 ^ (k + 1)) : n.size = k + 1 :=
  le_antisymm (Nat.size_le.mpr hhigh) (Nat.lt_size.mpr hlow)

theorem small_key_blocks :
    encryptBlockSize (131071 ^ 2 * 524287) = 3 ∧ decryptBlockSize (131071 * 524287) = 4 := by
  have hn : (131071 ^ 2 * 524287).size = 53 := size_eq (by norm_num) (by norm_num)
  have hpq : (131071 * 524287).size = 36 := size_eq (by norm_num) (by norm_num)
  simp only [encryptBlockSize, decryptBlockSize, sizeinbase2, hn, hpq]
  omega

theorem small_key_inverse : (4908103393 : ℤ) * (131071 ^ 2 * 524287 : ℕ) ≡ 1
    [ZMOD (Nat.lcm (131071 - 1) (524287 - 1) : ℕ)] := by
  decide

theorem small_key_fits : 131071 ^ 2 * 524287 ≤ 16 ^ 1022 :=
  have hsmall : 131071 ^ 2 * 524287 ≤ 16 ^ 14 := by norm_num
  hsmall.trans (pow_le_pow_right₀ (by decide) (by decide))

/-- Two bytes fill a block and come back. -/
theorem ss_file_round_trip_two_bytes :
    ∃ text, ss_encrypt_file [] [65, 66] (131071 ^ 2 * 524287) = some text ∧
      ss_decrypt_file text 4908103393 (131071 * 524287) = some [65, 66] := by
  obtain ⟨henc, hdec⟩ := small_key_blocks
  refine (ss_file_round_trip_iff (by norm_num) (by norm_num) (by norm_num) (by norm_num)
    small_key_inverse (by omega) [] [65, 66] (lines_fit (by norm_num) (by omega)
      small_key_fits _ _)).mpr ?_
  rw [henc, hdec]
  exact ⟨by decide, Or.inr (by omega)⟩

/-- A single byte does not fill the block and comes back with the padding behind it. -/
theorem short_block_keeps_padding :
    ∃ text, ss_encrypt_file [] [65] (131071 ^ 2 * 524287) = some text ∧
      ss_decrypt_file text 4908103393 (131071 * 524287) = some [65, 0] ∧
      ss_decrypt_file text 4908103393 (131071 * 524287) ≠ some [65] := by
  obtain ⟨henc, hdec⟩ := small_key_blocks
  obtain ⟨text, htext, hdecoded⟩ := ss_file_decoded (by norm_num) (by norm_num) (by norm_num)
    (by norm_num) small_key_inverse (by omega) [] [65] (lines_fit (by norm_num) (by omega)
      small_key_fits _ _)
  have hmessages : messages 3 [65] = [82176] := by
    have himport : mpz_import (lastBlock 3 [65]) = 82176 := by decide
    rw [messages, if_pos (by decide), himport, bump_eq (by norm_num)]
  have hexport : mpz_export 82176 = [1, 65, 0] := by
    rw [show (82176 : ℤ) = mpz_import [1, 65, 0] by decide, mpz_export_import]
    rfl
  have hout : ss_decrypt_file text 4908103393 (131071 * 524287) = some [65, 0] := by
    rw [hdecoded, henc, hdec, hmessages]
    simp [decoded, hexport]
  exact ⟨text, htext, hout, by simp [hout]⟩

end File

end FavoriteAssignments.SchmidtSamoa
