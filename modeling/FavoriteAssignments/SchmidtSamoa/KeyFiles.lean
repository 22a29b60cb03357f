import FavoriteAssignments.SchmidtSamoa.RoundTrip
import FavoriteAssignments.SchmidtSamoa.Primes
import Mathlib.Tactic.GCongr

/-! # Key files

The key files of `ss.c`. The writers have no bound on a line and print the user name as
a format; the readers use `fgets` into buffers of 512 and 1025 characters. -/

namespace FavoriteAssignments.SchmidtSamoa

open CStrings Positional

/-! ## Writers and readers -/

/-- `gmp_fprintf(file, format)` without further arguments. Any conversion but `%%` asks for
an argument, which C leaves undefined. -/
def gmp_fprintf : List Char → Option (List Char)
  | [] => some []
  | '%' :: '%' :: format => (gmp_fprintf format).map ('%' :: ·)
  | '%' :: _ => none
  | c :: format => (gmp_fprintf format).map (c :: ·)

def ss_write_pub (n : ℤ) (username : List Char) : Option (List Char) :=
  (gmp_fprintf username).map fun text => mpz_get_str n ++ '\n' :: text

/-- `fgets` into a buffer of `size` characters, `none` for `NULL`. -/
def fgets (size : ℕ) (file : List Char) : Option (List Char × List Char) :=
  if file = [] then none
  else
    let line := lineOf (size - 1) file
    some (line, file.drop line.length)

/-- The new line at the end of the user name is cleaned up. -/
def stripNewline (username : List Char) : List Char :=
  if username.getLast? = some '\n' then username.dropLast else username

/-- `none` is `exit(1)`. The result of `mpz_set_str` is not looked at: where it fails `n`
stays as it was. -/
def ss_read_pub (n : ℤ) (pbfile : List Char) : Option (ℤ × List Char) := do
  let (hexstr, pbfile) ← fgets 512 pbfile
  let n := (mpz_set_str (cString hexstr)).getD n
  let (username, _) ← fgets 512 pbfile
  some (n, stripNewline (cString username))

def ss_write_priv (pq d : ℤ) : List Char :=
  mpz_get_str pq ++ '\n' :: (mpz_get_str d ++ ['\n'])

/-- `none` is `exit(EXIT_FAILURE)`. -/
def ss_read_priv (pvfile : List Char) : Option (ℤ × ℤ) := do
  let (pq_str, pvfile) ← fgets (1024 + 1) pvfile
  let pq ← mpz_set_str (cString pq_str)
  let (d_str, _) ← fgets (1024 + 1) pvfile
  let d ← mpz_set_str (cString d_str)
  some (pq, d)

/-! ## Lines -/

theorem lineOf_eq_take {line : List Char} (hline : '\n' ∉ line) (count : ℕ) :
    lineOf count line = line.take count := by
  induction line generalizing count with
  | nil => cases count <;> rfl
  | cons c line ih =>
      simp only [List.mem_cons, not_or] at hline
      cases count with
      | zero => rfl
      | succ count => simp [lineOf, Ne.symm hline.1, ih hline.2]

/-- A line longer than the buffer is cut. -/
theorem lineOf_cut {line : List Char} (hline : '\n' ∉ line) (text : List Char) {count : ℕ}
    (hlong : count ≤ line.length) : lineOf count (line ++ text) = line.take count := by
  induction line generalizing count with
  | nil =>
      obtain rfl : count = 0 := by simpa using hlong
      rfl
  | cons c line ih =>
      simp only [List.mem_cons, not_or] at hline
      cases count with
      | zero => rfl
      | succ count =>
          have hrest : lineOf count (line ++ text) = line.take count :=
            ih hline.2 (by simpa using hlong)
          simp [lineOf, Ne.symm hline.1, hrest]

theorem lineOf_length_le (count : ℕ) (text : List Char) : (lineOf count text).length ≤ text.length := by
  induction text generalizing count with
  | nil => cases count <;> simp [lineOf]
  | cons c text ih =>
      cases count with
      | zero => simp [lineOf]
      | succ count =>
          simp only [lineOf]
          split
          · simp
          · simpa using ih count

/-- A line that fits is read whole, and the next read starts behind it. -/
theorem fgets_line {line : List Char} (hline : '\n' ∉ line) (text : List Char) {size : ℕ}
    (hfit : line.length + 2 ≤ size) :
    fgets size (line ++ '\n' :: text) = some (line ++ ['\n'], text) := by
  have hread : lineOf (size - 1) (line ++ '\n' :: text) = line ++ ['\n'] :=
    lineOf_line hline text (by omega)
  have hdrop : (line ++ '\n' :: text).drop (line ++ ['\n']).length = text := by simp
  rw [fgets, if_neg (by simp), hread]
  simp only [hdrop]

theorem stripNewline_length_le (username : List Char) :
    (stripNewline username).length ≤ username.length := by
  unfold stripNewline
  split
  · simp
  · exact le_rfl

theorem stripNewline_eq {username : List Char} (h : '\n' ∉ username) :
    stripNewline username = username := by
  refine if_neg fun hlast => h ?_
  exact List.mem_of_getLast? hlast

/-! ## Numbers -/

/-- A number on a line that fits the buffer reads back. -/
theorem read_number {m : ℤ} (hm : 0 ≤ m) (text : List Char) {size : ℕ}
    (hfit : (mpz_get_str m).length + 2 ≤ size) :
    fgets size (mpz_get_str m ++ '\n' :: text) = some (mpz_get_str m ++ ['\n'], text) ∧
      mpz_set_str (cString (mpz_get_str m ++ ['\n'])) = some m := by
  refine ⟨fgets_line (newline_not_mem_get_str hm) text hfit, ?_⟩
  rw [cString_get_str hm]
  exact mpz_set_str_get_str hm

theorem ss_read_write_priv {pq d : ℤ} (hpq : 0 ≤ pq) (hd : 0 ≤ d) (hpqlt : pq < (16 ^ 1023 : ℕ))
    (hdlt : d < (16 ^ 1023 : ℕ)) : ss_read_priv (ss_write_priv pq d) = some (pq, d) := by
  have hpqlen : (mpz_get_str pq).length ≤ 1023 := mpz_get_str_length_le hpq (by norm_num) hpqlt
  have hdlen : (mpz_get_str d).length ≤ 1023 := mpz_get_str_length_le hd (by norm_num) hdlt
  obtain ⟨hpqline, hpqset⟩ := read_number hpq (mpz_get_str d ++ ['\n'])
    (show (mpz_get_str pq).length + 2 ≤ 1024 + 1 by omega)
  obtain ⟨hdline, hdset⟩ := read_number hd []
    (show (mpz_get_str d).length + 2 ≤ 1024 + 1 by omega)
  simp only [ss_read_priv, ss_write_priv, hpqline, hpqset, hdline, hdset, Option.bind_eq_bind,
    Option.bind_some]

/-! ## User names -/

/-- A user name that a line of the public key file has room for. -/
structure Username where
  chars : List Char
  nonempty : chars ≠ []
  length_lt : chars.length < 511
  no_newline : '\n' ∉ chars
  no_nul : '\x00' ∉ chars

theorem gmp_fprintf_eq {format : List Char} (h : '%' ∉ format) : gmp_fprintf format = some format := by
  fun_induction gmp_fprintf format with
  | case1 => rfl
  | case2 format ih => simp at h
  | case3 => simp at h
  | case4 c format _ _ ih => simp [ih (fun hmem => h (List.mem_cons_of_mem _ hmem))]

theorem gmp_fprintf_length_le {format text : List Char} (h : gmp_fprintf format = some text) :
    text.length ≤ format.length := by
  fun_induction gmp_fprintf format generalizing text with
  | case1 => simp_all
  | case2 format ih =>
      obtain ⟨rest, hrest, rfl⟩ := Option.map_eq_some_iff.mp h
      have := ih hrest
      simp only [List.length_cons]
      omega
  | case3 => simp at h
  | case4 c format _ _ ih =>
      obtain ⟨rest, hrest, rfl⟩ := Option.map_eq_some_iff.mp h
      simpa using ih hrest

/-- Printing a name with a conversion character in it loses characters. -/
theorem gmp_fprintf_length_lt {format text : List Char} (hmem : '%' ∈ format)
    (h : gmp_fprintf format = some text) : text.length < format.length := by
  fun_induction gmp_fprintf format generalizing text with
  | case1 => simp at hmem
  | case2 format ih =>
      obtain ⟨rest, hrest, rfl⟩ := Option.map_eq_some_iff.mp h
      have := gmp_fprintf_length_le hrest
      simp only [List.length_cons]
      omega
  | case3 => simp at h
  | case4 c format _ hpercent ih =>
      have hpercent : c ≠ '%' := hpercent
      obtain ⟨rest, hrest, rfl⟩ := Option.map_eq_some_iff.mp h
      have hrestmem : '%' ∈ format := by simpa [Ne.symm hpercent] using hmem
      simpa using ih hrestmem hrest

/-! ## The public key -/

/-- What both readers give back for the files that the writers make. -/
def KeyFilesRoundTrip (n₀ n pq d : ℤ) (username : List Char) : Prop :=
  (ss_write_pub n username).bind (ss_read_pub n₀) = some (n, username) ∧
    ss_read_priv (ss_write_priv pq d) = some (pq, d)

variable {n₀ n : ℤ} {username text : List Char}

theorem fgets_last {size : ℕ} (hne : text ≠ []) (hline : '\n' ∉ text) (hfit : text.length < size) :
    fgets size text = some (text, []) := by
  have htake : text.take (size - 1) = text := List.take_of_length_le (by omega)
  rw [fgets, if_neg hne, lineOf_eq_take hline, htake]
  simp

theorem ss_read_write_pub (hn : 0 ≤ n) (hlt : n < (16 ^ 510 : ℕ)) (username : Username)
    (hplain : '%' ∉ username.chars) :
    (ss_write_pub n username.chars).bind (ss_read_pub n₀) = some (n, username.chars) := by
  have hlen : (mpz_get_str n).length ≤ 510 := mpz_get_str_length_le hn (by norm_num) hlt
  obtain ⟨hline, hset⟩ := read_number hn username.chars
    (show (mpz_get_str n).length + 2 ≤ 512 by omega)
  have hname : fgets 512 username.chars = some (username.chars, []) :=
    fgets_last username.nonempty username.no_newline (by have := username.length_lt; omega)
  simp only [ss_write_pub, ss_read_pub, gmp_fprintf_eq hplain, hline, hset, hname, Option.map_some,
    Option.bind_eq_bind, Option.bind_some, Option.getD_some, cString_eq username.no_nul,
    stripNewline_eq username.no_newline]

theorem fgets_cases {size : ℕ} {file line rest : List Char} (h : fgets size file = some (line, rest)) :
    line = lineOf (size - 1) file ∧ rest = file.drop line.length := by
  unfold fgets at h
  split at h
  · simp at h
  · simp only [Option.some.injEq, Prod.mk.injEq] at h
    obtain ⟨rfl, rfl⟩ := h
    exact ⟨rfl, rfl⟩

/-- The two lines behind a result of `ss_read_pub`. -/
theorem ss_read_pub_cases {file : List Char} {m : ℤ} (h : ss_read_pub n₀ file = some (m, username)) :
    ∃ hexstr rest line rest', fgets 512 file = some (hexstr, rest) ∧
      fgets 512 rest = some (line, rest') ∧ m = (mpz_set_str (cString hexstr)).getD n₀ ∧
      username = stripNewline (cString line) := by
  simp only [ss_read_pub, Option.bind_eq_bind, Option.bind_eq_some_iff, Prod.exists,
    Option.some.injEq, Prod.mk.injEq] at h
  obtain ⟨hexstr, rest, hfirst, line, rest', hsecond, rfl, rfl⟩ := h
  exact ⟨hexstr, rest, line, rest', hfirst, hsecond, rfl, rfl⟩

/-- The user name read is not longer than the text of the second line. -/
theorem ss_read_pub_username_length (hn : 0 ≤ n) (hlt : n < (16 ^ 510 : ℕ)) {m : ℤ}
    (h : ss_read_pub n₀ (mpz_get_str n ++ '\n' :: text) = some (m, username)) :
    username.length ≤ text.length := by
  have hlen : (mpz_get_str n).length ≤ 510 := mpz_get_str_length_le hn (by norm_num) hlt
  obtain ⟨hread, -⟩ := read_number hn text (show (mpz_get_str n).length + 2 ≤ 512 by omega)
  obtain ⟨hexstr, rest, line, rest', hfirst, hsecond, -, rfl⟩ := ss_read_pub_cases h
  rw [hread] at hfirst
  obtain ⟨rfl, rfl⟩ : mpz_get_str n ++ ['\n'] = hexstr ∧ text = rest := by simpa using hfirst
  obtain ⟨rfl, -⟩ := fgets_cases hsecond
  calc (stripNewline (cString (lineOf (512 - 1) text))).length
      ≤ (cString (lineOf (512 - 1) text)).length := stripNewline_length_le _
    _ ≤ (lineOf (512 - 1) text).length := cString_length_le _
    _ ≤ text.length := lineOf_length_le _ _

/-- A modulus of 511 digits or more leaves no user name, or a smaller modulus. -/
theorem ss_read_pub_long (hlong : ((16 ^ 510 : ℕ) : ℤ) ≤ n) {m : ℤ}
    (h : ss_read_pub n₀ (mpz_get_str n ++ '\n' :: text) = some (m, username)) :
    username = [] ∨ m ≠ n := by
  have hn : 0 ≤ n := (Int.natCast_nonneg _).trans hlong
  obtain ⟨ds, hne, hlt, hval, hstr⟩ := mpz_get_str_nonneg hn
  have hlength : 511 ≤ ds.length := by
    by_contra hshort
    have hsmall := value_lt (by norm_num) hlt
    have hpow := Nat.pow_le_pow_right (show 0 < 16 by norm_num) (show ds.length ≤ 510 by omega)
    omega
  have hplain : '\n' ∉ ds.map Nat.digitChar := hstr ▸ newline_not_mem_get_str hn
  have hnul : '\x00' ∉ ds.map Nat.digitChar := hstr ▸ nul_not_mem_get_str hn
  have hdigits : (ds.map Nat.digitChar).length = ds.length := List.length_map _
  obtain ⟨hexstr, rest, line, rest', hfirst, hsecond, rfl, rfl⟩ := ss_read_pub_cases h
  obtain ⟨rfl, rfl⟩ := fgets_cases hfirst
  obtain ⟨rfl, -⟩ := fgets_cases hsecond
  rw [hstr, lineOf_cut hplain _ (by omega)]
  rcases hlength.eq_or_lt with hexact | hmore
  · left
    have htake : (ds.map Nat.digitChar).take (512 - 1) = ds.map Nat.digitChar :=
      List.take_of_length_le (by omega)
    rw [htake, List.drop_left]
    simp [lineOf, cString, stripNewline]
  · right
    have hpos : 0 < value 16 ds := by
      have := Nat.pow_pos (n := 510) (show 0 < 16 by norm_num)
      omega
    have hcut := value_take_lt (by norm_num) hmore hpos
    have hset : mpz_set_str ((ds.take 511).map Nat.digitChar) = some (value 16 (ds.take 511) : ℤ) := by
      have htake : ds.take 511 ≠ [] := by simp [hne]
      simpa using mpz_set_str_digits htake (fun d hd => hlt d (List.mem_of_mem_take hd))
        (show ∀ c ∈ ([] : List Char), isspace c = true by simp)
    have hplainnul : '\x00' ∉ (ds.take 511).map Nat.digitChar := by
      rw [List.map_take]
      exact fun hmem => hnul (List.mem_of_mem_take hmem)
    rw [← List.map_take, cString_eq hplainnul, hset, Option.getD_some, ← hval]
    omega

/-- The key files of a key of two factors come back exactly when the modulus has at most
510 digits and the user name is no format. -/
theorem keyFilesRoundTrip_iff {p q : ℕ} (hp : 2 ≤ p) (hq : 2 ≤ q) (username : Username) :
    KeyFilesRoundTrip n₀ (p * p * q : ℕ) (ss_make_priv p q).2 (ss_make_priv p q).1 username.chars ↔
      p * p * q < 16 ^ 510 ∧ '%' ∉ username.chars := by
  obtain ⟨hpq, hd, hdle⟩ := ss_make_priv_bounds hp hq
  have hn : (0 : ℤ) ≤ (p * p * q : ℕ) := Int.natCast_nonneg _
  constructor
  · intro hround
    obtain ⟨file, hfile, hread⟩ := Option.bind_eq_some_iff.mp hround.1
    obtain ⟨text, htext, rfl⟩ := Option.map_eq_some_iff.mp hfile
    have hlt : p * p * q < 16 ^ 510 := by
      by_contra hlong
      rcases ss_read_pub_long (by exact_mod_cast not_lt.mp hlong) hread with hname | hdiffers
      · exact username.nonempty hname
      · exact hdiffers rfl
    refine ⟨hlt, fun hmem => ?_⟩
    have hshort := gmp_fprintf_length_lt hmem htext
    have hlength := ss_read_pub_username_length hn (by exact_mod_cast hlt) hread
    omega
  · intro ⟨hlt, hplain⟩
    have hfits : p * q < 16 ^ 1023 :=
      calc p * q ≤ p * (p * q) := Nat.le_mul_of_pos_left _ (Nat.zero_lt_of_lt hp)
        _ = p * p * q := (mul_assoc p p q).symm
        _ < 16 ^ 510 := hlt
        _ ≤ 16 ^ 1023 := by gcongr <;> norm_num
    refine ⟨ss_read_write_pub hn (by exact_mod_cast hlt) username hplain, ?_⟩
    rw [hpq]
    exact ss_read_write_priv (Int.natCast_nonneg _) hd (by exact_mod_cast hfits)
      (hdle.trans_lt (by exact_mod_cast hfits))

end FavoriteAssignments.SchmidtSamoa
