import FavoriteAssignments.Library.Streams
import FavoriteAssignments.SchmidtSamoa.Keygen

/-! # The three programs

`keygen`, `encrypt` and `decrypt` with their options, on one file system. A program that
fails or leaves the language has no result. -/

namespace FavoriteAssignments.SchmidtSamoa

open CStrings Streams

/-! ## Output of numbers -/

/-- `%Zd` and `%d`. -/
def decimal (n : ℤ) : List Char :=
  (if n < 0 then ['-'] else []) ++
    (if n = 0 then ['0'] else (Positional.numeral 10 n.natAbs).map Nat.digitChar)

/-- A line of the verbose output: `name (%d bits) = %Zd`. -/
def verboseLine (name : String) (n : ℤ) : List Char :=
  name.toList ++ " (".toList ++ decimal (sizeinbase2 n.natAbs) ++ " bits) = ".toList ++ decimal n ++
    ['\n']

def userLine (username : List Char) : List Char := "user = ".toList ++ username ++ ['\n']

/-! ## `keygen` -/

/-- What `getopt` returns, with the path or the number that `optarg` stands for. -/
inductive KeygenOpt where
  | b (bits : ℕ)
  | i (iters : ℕ)
  | n (path : String)
  | d (path : String)
  | s (seed : ℕ)
  | v
  | h
  | unknown
  deriving DecidableEq

structure KeygenSettings where
  bits : ℕ
  iters : ℕ
  file_pubkey : String
  file_privkey : String
  seed : Option ℕ
  verbose : Bool

def keygenUsage : String :=
  "SYNOPSIS:\n   Generates an SS public/private key pair.\n\nUSAGE\n   ./keygen " ++
  "[OPTIONS]\n\nOPTIONS\n  -h\t\tDisplay program help and usage.\n  -v\t\tDisplay " ++
  "verbose program output.\n  -b bits\tMinimum bits needed for public key n " ++
  "(default: 256).\n  -i iterations\tMiller-Rabin iterations for testing primes " ++
  "(default: 50).\n  -n pbfile\tPublic key file (default: ss.pub).\n  -d " ++
  "pvfile\tPrivate key file (default: ss.priv).\n  -s seed\tRandom seed for " ++
  "testing.\n"

/-- The loop over the options; no settings where the program exits. -/
def keygenOptions : List KeygenOpt → KeygenSettings → World Char →
    Option KeygenSettings × World Char
  | [], settings, w => (some settings, w)
  | .b bits :: options, settings, w => keygenOptions options { settings with bits } w
  | .i iters :: options, settings, w => keygenOptions options { settings with iters } w
  | .n path :: options, settings, w =>
      keygenOptions options { settings with file_pubkey := path } w
  | .d path :: options, settings, w =>
      keygenOptions options { settings with file_privkey := path } w
  | .s seed :: options, settings, w => keygenOptions options { settings with seed := some seed } w
  | .v :: options, settings, w => keygenOptions options { settings with verbose := true } w
  | .h :: options, settings, w =>
      keygenOptions options settings (w.write keygenUsage.toList .standard)
  | .unknown :: _, _, w => (none, w.write keygenUsage.toList .standard)

def keygenDefaults : KeygenSettings := ⟨256, 50, "ss.pub", "ss.priv", none, false⟩

def keygenVerbose (username : List Char) (keys : Keys) : List Char :=
  userLine username ++ verboseLine "p " keys.p ++ verboseLine "q " keys.q ++
    verboseLine "n " keys.n ++ verboseLine "pq" keys.pq ++ verboseLine "d " keys.d

section Keygen

variable {G : Type} (gmp : Gmp G) (time : ℕ → ℕ)

/-- `main` of `keygen.c`. -/
def keygenMain (options : List KeygenOpt) (username : List Char) (random fuel : ℕ)
    (w : World Char) : Option (World Char) :=
  match keygenOptions options keygenDefaults w with
  | (none, w) => some w
  | (some settings, w) => do
      let keys ← keygen gmp time settings.bits settings.iters settings.seed username random fuel
      let w := (w.openWrite settings.file_pubkey).write keys.pbfile (.file settings.file_pubkey)
      let w := (w.openWrite settings.file_privkey).write keys.pvfile (.file settings.file_privkey)
      return if settings.verbose then w.write (keygenVerbose username keys) .standard else w

end Keygen

/-! ## `encrypt` and `decrypt` -/

/-- The options that both programs have. -/
inductive CryptOpt where
  | i (path : String)
  | o (path : String)
  | n (path : String)
  | v
  | h
  | unknown
  deriving DecidableEq

structure CryptSettings where
  input_filename : Option String
  output_filename : Option String
  key_filename : String
  verbose : Bool
  deriving DecidableEq

/-- `decrypt` prints the text of `encrypt`. -/
def cryptUsage : String :=
  "SYNOPSIS:\n" ++ "   Encrypts data using an SS encryption.\n   Encrypted data is " ++
  "decrypted by the decrypt program.\n\nUSAGE\n   ./encrypt " ++
  "[OPTIONS]\n\nOPTIONS\n  -h\t\t\tDisplay program help and usage.\n  " ++
  "-v\t\t\tDisplay verbose program output.\n  -i infile\t\tInput file of data to " ++
  "encrypt (default: stdin).\n  -o outfile\tOutput file for encrypted data " ++
  "(default: stdout).\n  -n pbfile\t\tPublic key file (default: ss.pub).\n"

/-- The loop over the options; no settings where the program returns. -/
def cryptOptions : List CryptOpt → CryptSettings → World Char →
    Option CryptSettings × World Char
  | [], settings, w => (some settings, w)
  | .i path :: options, settings, w =>
      cryptOptions options { settings with input_filename := some path } w
  | .o path :: options, settings, w =>
      cryptOptions options { settings with output_filename := some path } w
  | .n path :: options, settings, w =>
      cryptOptions options { settings with key_filename := path } w
  | .v :: options, settings, w => cryptOptions options { settings with verbose := true } w
  | .h :: options, settings, w =>
      cryptOptions options settings (w.write cryptUsage.toList .standard)
  | .unknown :: _, _, w => (none, w.write cryptUsage.toList .standard)

/-- The input, where it is not a null pointer. -/
def CryptSettings.openInput (settings : CryptSettings) (w : World Char) : Option Stream :=
  match settings.input_filename with
  | none => some .standard
  | some path => w.openRead path

def CryptSettings.openOutput (settings : CryptSettings) (w : World Char) : World Char × Stream :=
  match settings.output_filename with
  | none => (w, .standard)
  | some path => (w.openWrite path, .file path)

/-- Bytes as the characters of a stream. -/
def ofBytes (bytes : List UInt8) : List Char := bytes.map fun b => Char.ofNat b.toNat

def toBytes (contents : List Char) : List UInt8 := contents.map fun c => UInt8.ofNat c.toNat

/-- What the two programs have in common: they read a key, print it where `verbose` is set,
open both streams and write what `crypt` makes of the input. -/
def cryptMain {κ : Type} (key_filename : String) (readKey : List Char → Option κ)
    (verboseKey : κ → List Char) (crypt : κ → List Char → Option (List Char))
    (options : List CryptOpt) (w : World Char) : Option (World Char) :=
  match cryptOptions options ⟨none, none, key_filename, false⟩ w with
  | (none, w) => some w
  | (some settings, w) => do
      let key_file ← (w.openRead settings.key_filename).bind w.read
      let key ← readKey key_file
      let w := if settings.verbose then w.write (verboseKey key) .standard else w
      let input_file ← settings.openInput w
      let (w, output_file) := settings.openOutput w
      let infile ← w.read input_file
      let outfile ← crypt key infile
      return w.write outfile output_file

/-- `main` of `encrypt.c`. `garbage` is what `malloc` leaves in the block; a modulus in a
key file is taken not to be negative. -/
def encryptMain (options : List CryptOpt) (garbage : List UInt8) (w : World Char) :
    Option (World Char) :=
  cryptMain "ss.pub" (ss_read_pub 0)
    (fun (n, username) => userLine username ++ verboseLine "Public key (n)" n)
    (fun (n, _) infile => ss_encrypt_file garbage (toBytes infile) n.toNat) options w

/-- `main` of `decrypt.c`. The private modulus in a key file is taken not to be negative. -/
def decryptMain (options : List CryptOpt) (w : World Char) : Option (World Char) :=
  cryptMain "ss.priv" ss_read_priv (fun (pq, d) => verboseLine "pq" pq ++ verboseLine "d" d)
    (fun (pq, d) infile => (ss_decrypt_file infile d pq.toNat).map ofBytes) options w

/-! ## Options -/

theorem keygenOptions_files (options : List KeygenOpt) (settings : KeygenSettings)
    (w : World Char) : (keygenOptions options settings w).2.files = w.files := by
  induction options generalizing settings w with
  | nil => rfl
  | cons opt options ih =>
      cases opt <;> first
        | exact ih _ _
        | rfl

theorem cryptUsage_head : cryptUsage.toList.head? = some 'S' := by
  have hfirst : "SYNOPSIS:\n".toList.head? = some 'S' := by decide +kernel
  simp only [cryptUsage, String.toList_append, List.head?_append, hfirst, Option.some_or]

/-- The options print nothing but the text of `-h`, once or more. -/
theorem cryptOptions_world (options : List CryptOpt) (settings : CryptSettings) (w : World Char) :
    ∃ text, (cryptOptions options settings w).2 = w.write text .standard ∧
      (text = [] ∨ text.head? = some 'S') := by
  induction options generalizing settings w with
  | nil => exact ⟨[], (write_nil_standard w).symm, .inl rfl⟩
  | cons opt options ih =>
      cases opt with
      | i path => exact ih _ _
      | o path => exact ih _ _
      | n path => exact ih _ _
      | v => exact ih _ _
      | h =>
          obtain ⟨text, hworld, -⟩ := ih settings (w.write cryptUsage.toList .standard)
          refine ⟨cryptUsage.toList ++ text, ?_, .inr (by simp [cryptUsage_head])⟩
          rw [cryptOptions, hworld, write_write_standard]
      | unknown => exact ⟨cryptUsage.toList, rfl, .inr cryptUsage_head⟩

/-! ## From file to file -/

section Files

variable {κ : Type} {key_filename : String} {readKey : List Char → Option κ}
  {verboseKey : κ → List Char} {crypt : κ → List Char → Option (List Char)}
  {options : List CryptOpt} {w : World Char} {k i o : String} {verbose : Bool}
  {keyfile : List Char}

/-- From one file to another one, a program writes this file and no other. -/
theorem cryptMain_files (key : κ) (infile : List Char)
    (hoptions : (cryptOptions options ⟨none, none, key_filename, false⟩ w).1 =
      some ⟨some i, some o, k, verbose⟩)
    (hkey : w.files k = some keyfile) (hread : readKey keyfile = some key)
    (hinfile : w.files i = some infile) (hne : i ≠ o) :
    ∃ mid : World Char, mid.files = w.files ∧
      cryptMain key_filename readKey verboseKey crypt options w =
        (crypt key infile).map fun out => (mid.openWrite o).write out (.file o) := by
  obtain ⟨usage, hworld, -⟩ := cryptOptions_world options ⟨none, none, key_filename, false⟩ w
  have hfiles : (cryptOptions options ⟨none, none, key_filename, false⟩ w).2.files = w.files := by
    rw [hworld, write_standard_files]
  rw [cryptMain]
  generalize cryptOptions options ⟨none, none, key_filename, false⟩ w = parsed at hoptions hfiles
  obtain ⟨settings, w'⟩ := parsed
  dsimp only at hoptions hfiles
  subst hoptions
  have hmid : (if verbose then w'.write (verboseKey key) .standard else w').files = w.files := by
    split <;> exact hfiles
  refine ⟨_, hmid, ?_⟩
  have hkey' : w'.files k = some keyfile := by rw [hfiles, hkey]
  simp only [openRead_eq_some w' k hkey', World.read, hkey', hread, Option.bind_eq_bind,
    Option.bind_some]
  generalize (if verbose then w'.write (verboseKey key) .standard else w') = mid at hmid ⊢
  have hinfile' : mid.files i = some infile := by rw [hmid, hinfile]
  simp only [CryptSettings.openInput, openRead_eq_some mid i hinfile', CryptSettings.openOutput,
    openWrite_files_of_ne mid o hne, hinfile', Option.bind_some]
  cases crypt key infile <;> rfl

end Files

theorem toBytes_ofBytes (bytes : List UInt8) : toBytes (ofBytes bytes) = bytes := by
  have hbyte : ∀ b : UInt8, UInt8.ofNat (Char.ofNat b.toNat).toNat = b := by
    intro b
    have hb : b.toNat < 256 := b.toNat_lt
    rw [Char.ofNat, dif_pos (show b.toNat.isValidChar from Or.inl (by omega))]
    exact UInt8.ofNat_toNat
  rw [toBytes, ofBytes, List.map_map]
  exact (List.map_congr_left fun b _ => hbyte b).trans (List.map_id _)

/-! ## The whole way -/

section Pipeline

variable {G : Type} {gmp : Gmp G} {time : ℕ → ℕ} {random fuel : ℕ} {keys : Keys}
  {settings : KeygenSettings} {koptions : List KeygenOpt} {w : World Char}

/-- The parts of the key that `keygen` makes. -/
theorem keygen_spec {bits iters : ℕ} {seed : Option ℕ} {username : List Char}
    (h : keygen gmp time bits iters seed username random fuel = some keys) :
    2 ≤ keys.p ∧ 2 ≤ keys.q ∧ keys.n = keys.p ^ 2 * keys.q ∧
      ss_write_pub keys.n username = some keys.pbfile ∧
      ss_make_priv keys.p keys.q = (keys.d, keys.pq) ∧
      keys.pvfile = ss_write_priv keys.pq keys.d := by
  rw [keygen] at h
  obtain ⟨⟨⟨p, q, n⟩, run⟩, hpub, h⟩ := Option.bind_eq_some_iff.mp h
  obtain ⟨pbfile, hwrite, h⟩ := Option.bind_eq_some_iff.mp h
  obtain rfl := Option.some.inj h
  obtain ⟨hp, hq, hn⟩ := ss_make_pub_spec hpub
  exact ⟨hp, hq, by rw [hn, sq], hwrite, rfl, rfl⟩

/-- `keygen` writes its two files and no other. -/
theorem keygenMain_files {username : List Char}
    (hoptions : (keygenOptions koptions keygenDefaults w).1 = some settings)
    (hkeys : keygen gmp time settings.bits settings.iters settings.seed username random fuel =
      some keys) (hne : settings.file_pubkey ≠ settings.file_privkey) :
    ∃ w₁, keygenMain gmp time koptions username random fuel w = some w₁ ∧
      w₁.files settings.file_pubkey = some keys.pbfile ∧
      w₁.files settings.file_privkey = some keys.pvfile ∧
      ∀ path, path ≠ settings.file_pubkey → path ≠ settings.file_privkey →
        w₁.files path = w.files path := by
  have hfiles := keygenOptions_files koptions keygenDefaults w
  rw [keygenMain]
  generalize keygenOptions koptions keygenDefaults w = parsed at hoptions hfiles
  obtain ⟨parsedSettings, w'⟩ := parsed
  dsimp only at hoptions hfiles
  subst hoptions
  simp only [hkeys, Option.bind_eq_bind, Option.bind_some]
  refine ⟨_, rfl, ?_⟩
  split
  all_goals
    refine ⟨by simp [hne], by simp, fun path hpub hpriv => ?_⟩
    simp [hpub, hpriv, hfiles]

/-- Both key files give back what `keygen` put there. -/
theorem key_files_read {bits iters : ℕ} {seed : Option ℕ} (username : Username)
    (hkeys : keygen gmp time bits iters seed username.chars random fuel = some keys)
    (hplain : '%' ∉ username.chars) (hn : keys.n < 16 ^ 510) :
    ss_read_pub 0 keys.pbfile = some ((keys.n : ℤ), username.chars) ∧
      ss_read_priv keys.pvfile = some (keys.pq, keys.d) := by
  obtain ⟨hp, hq, hmodulus, hpub, hpriv, hpvfile⟩ := keygen_spec hkeys
  have hsquare : keys.n = keys.p * keys.p * keys.q := by rw [hmodulus, sq]
  have hround : KeyFilesRoundTrip 0 _ _ _ username.chars :=
    (keyFilesRoundTrip_iff hp hq username).mpr ⟨hsquare ▸ hn, hplain⟩
  rw [KeyFilesRoundTrip, hpriv, ← hsquare, hpub, Option.bind_some, ← hpvfile] at hround
  exact hround

/-- A usable key decrypts a file to what its messages decode to. -/
theorem key_decodes {bits iters : ℕ} {seed : Option ℕ} {username : List Char}
    (hkeys : keygen gmp time bits iters seed username random fuel = some keys)
    (hp : keys.p.Prime) (hq : keys.q.Prime) (husable : Usable keys.p keys.q keys.n keys.d)
    (hn : keys.n < 16 ^ 510) (hbs : 2 ≤ encryptBlockSize keys.n) (garbage x : List UInt8) :
    ∃ text, ss_encrypt_file garbage x keys.n = some text ∧
      (ss_decrypt_file text keys.d keys.pq.toNat = some x ↔
        encryptBlockSize keys.n - 1 ∣ x.length ∧
          (x = [] ∨ encryptBlockSize keys.n + 1 ≤ decryptBlockSize (keys.p * keys.q))) := by
  obtain ⟨hp2, hq2, hmodulus, -, hpriv, -⟩ := keygen_spec hkeys
  obtain ⟨hpq, hd, -⟩ := ss_make_priv_bounds hp2 hq2
  rw [hpriv] at hpq hd
  dsimp only at hpq hd
  obtain ⟨hne, -, hinv⟩ := husable
  rw [hmodulus, mul_comm] at hinv
  have hle : keys.p ^ 2 * keys.q ≤ 16 ^ 1022 :=
    calc keys.p ^ 2 * keys.q = keys.n := hmodulus.symm
      _ ≤ 16 ^ 510 := hn.le
      _ ≤ 16 ^ 1022 := by gcongr <;> norm_num
  rw [hmodulus] at hbs
  obtain ⟨text, htext, hdecoded⟩ := ss_file_decoded hp hq hne hd hinv hbs garbage x
    (lines_fit (one_lt_modulus hp hq) hbs hle garbage x)
  refine ⟨text, hmodulus ▸ htext, ?_⟩
  rw [hpq, Int.toNat_natCast, hdecoded, hmodulus]
  exact decoded_messages_iff hbs (block_sizes hp2 hq2 hbs).2 x

/-- A file that is encrypted with the public key file and decrypted with the private one comes
back exactly when its length is a multiple of the data bytes of a block, and it is empty or
these blocks fit on the decrypting side. Only the four files that are written change. -/
theorem programs_restore_iff {eoptions doptions : List CryptOpt} {i c o : String} {v v' : Bool}
    (username : Username) (garbage x : List UInt8)
    (hkoptions : (keygenOptions koptions keygenDefaults w).1 = some settings)
    (heoptions : ∀ w, (cryptOptions eoptions ⟨none, none, "ss.pub", false⟩ w).1 =
      some ⟨some i, some c, settings.file_pubkey, v⟩)
    (hdoptions : ∀ w, (cryptOptions doptions ⟨none, none, "ss.priv", false⟩ w).1 =
      some ⟨some c, some o, settings.file_privkey, v'⟩)
    (hkeys : keygen gmp time settings.bits settings.iters settings.seed username.chars random fuel =
      some keys) (hp : keys.p.Prime) (hq : keys.q.Prime)
    (husable : Usable keys.p keys.q keys.n keys.d)
    (hplain : '%' ∉ username.chars) (hn : keys.n < 16 ^ 510) (hbs : 2 ≤ encryptBlockSize keys.n)
    (hnames : settings.file_pubkey ≠ settings.file_privkey) (hi : i ∉ [settings.file_pubkey,
      settings.file_privkey, c]) (hc : c ∉ [settings.file_privkey, o])
    (hx : w.files i = some (ofBytes x)) :
    ∃ w₁ w₂, keygenMain gmp time koptions username.chars random fuel w = some w₁ ∧
      encryptMain eoptions garbage w₁ = some w₂ ∧
      ((∃ w₃, decryptMain doptions w₂ = some w₃ ∧ w₃.files o = some (ofBytes x)) ↔
        encryptBlockSize keys.n - 1 ∣ x.length ∧
          (x = [] ∨ encryptBlockSize keys.n + 1 ≤ decryptBlockSize (keys.p * keys.q))) ∧
      ∀ w₃, decryptMain doptions w₂ = some w₃ → ∀ path,
        path ∉ [settings.file_pubkey, settings.file_privkey, c, o] →
          w₃.files path = w.files path := by
  simp only [List.mem_cons, List.not_mem_nil, or_false, not_or] at hi hc
  obtain ⟨hreadpub, hreadpriv⟩ := key_files_read username hkeys hplain hn
  obtain ⟨text, htext, hround⟩ := key_decodes hkeys hp hq husable hn hbs garbage x
  obtain ⟨w₁, hkeygen, hpubfile, hprivfile, hothers⟩ := keygenMain_files hkoptions hkeys hnames
  have hencrypt : ∃ mid : World Char, mid.files = w₁.files ∧
      encryptMain eoptions garbage w₁ =
        (ss_encrypt_file garbage (toBytes (ofBytes x)) (keys.n : ℤ).toNat).map fun out =>
          (mid.openWrite c).write out (.file c) :=
    cryptMain_files ((keys.n : ℤ), username.chars) (ofBytes x) (heoptions w₁) hpubfile hreadpub
      ((hothers i hi.1 hi.2.1).trans hx) hi.2.2
  obtain ⟨mid, hmid, hencrypt⟩ := hencrypt
  rw [toBytes_ofBytes, Int.toNat_natCast, htext, Option.map_some] at hencrypt
  refine ⟨w₁, (mid.openWrite c).write text (.file c), hkeygen, hencrypt, ?_⟩
  have hdecrypt : ∃ mid' : World Char,
      mid'.files = ((mid.openWrite c).write text (.file c)).files ∧
      decryptMain doptions ((mid.openWrite c).write text (.file c)) =
        ((ss_decrypt_file text keys.d keys.pq.toNat).map ofBytes).map fun out =>
          (mid'.openWrite o).write out (.file o) :=
    cryptMain_files (keys.pq, keys.d) text (hdoptions _)
      (by simp [Ne.symm hc.1, hmid, hprivfile]) hreadpriv (by simp) hc.2
  obtain ⟨mid', hmid', hdecrypt⟩ := hdecrypt
  rw [hdecrypt, ← hround]
  constructor
  · constructor
    · rintro ⟨w₃, hw₃, hfile⟩
      obtain ⟨out, hout, rfl⟩ := Option.map_eq_some_iff.mp hw₃
      obtain ⟨message, hmessage, rfl⟩ := Option.map_eq_some_iff.mp hout
      rw [write_openWrite_files, Option.some.injEq] at hfile
      rw [hmessage, ← toBytes_ofBytes message, hfile, toBytes_ofBytes]
    · intro hmessage
      rw [hmessage]
      exact ⟨_, rfl, write_openWrite_files _ _ _⟩
  · intro w₃ hw₃ path hpath
    obtain ⟨out, -, rfl⟩ := Option.map_eq_some_iff.mp hw₃
    simp only [List.mem_cons, List.not_mem_nil, or_false, not_or] at hpath
    obtain ⟨hpub, hpriv, hc', ho⟩ := hpath
    simp [ho, hc', hmid', hmid, hothers path hpub hpriv]

theorem ones_ge (bits : ℕ) (hbits : 0 < bits) : 2 ^ (bits - 1) ≤ 2 ^ bits - 1 :=
  Nat.le_sub_one_of_lt (Nat.pow_lt_pow_right one_lt_two (Nat.sub_lt hbits one_pos))

theorem ones_lt (bits : ℕ) : 2 ^ bits - 1 < 2 ^ bits := Nat.sub_lt (Nat.two_pow_pos bits) one_pos

/-- A generator that draws only ones. -/
def onesGmp : Gmp Unit where
  randseed_ui _ := ()
  rrandomb _ bits := (2 ^ bits - 1, ())
  urandomm _ _ := (0, ())
  rrandomb_ge _ := ones_ge
  rrandomb_lt _ := ones_lt
  urandomm_lt _ _ hn := hn

/-- `-b 53 -i 0` finds the two Mersenne primes. -/
def mersenneKeys : Keys :=
  ⟨131071, 524287, 131071 * 131071 * 524287, (ss_make_priv (131071 : ℕ) (524287 : ℕ)).1,
    (ss_make_priv (131071 : ℕ) (524287 : ℕ)).2,
    mpz_get_str (131071 * 131071 * 524287 : ℕ) ++ ['\n', 'u'],
    ss_write_priv (ss_make_priv (131071 : ℕ) (524287 : ℕ)).2
      (ss_make_priv (131071 : ℕ) (524287 : ℕ)).1⟩

theorem mersenneKeys_made :
    keygen onesGmp (fun _ => 0) 53 0 none ['u'] 7 1 = some mersenneKeys := by
  have hpub : ss_make_pub onesGmp (fun _ => 0) 53 0 7 1 (randstate_init onesGmp (fun _ => 0) none) =
      some ((131071, 524287, 131071 * 131071 * 524287), ⟨(), 3⟩) := by
    decide +kernel
  rw [keygen, hpub]
  rfl

theorem mersenneKeys_usable : Usable mersenneKeys.p mersenneKeys.q mersenneKeys.n mersenneKeys.d :=
  (ss_make_priv_usable_iff (show Nat.Prime 131071 by norm_num)
    (show Nat.Prime 524287 by norm_num)).mpr (by norm_num)

theorem mersenneKeys_short : mersenneKeys.n < 16 ^ 510 :=
  calc 131071 * 131071 * 524287 < 16 ^ 14 := by norm_num
    _ ≤ 16 ^ 510 := by gcongr <;> norm_num

theorem mersenneKeys_blocks : encryptBlockSize mersenneKeys.n = 3 := small_key_blocks.1

/-- A user name of one letter. -/
def oneLetter : Username := ⟨['u'], by decide, by decide, by decide, by decide⟩

/-- Two bytes, in files with the default names of the keys. -/
theorem programs_restore_iff_two_bytes : ∃ w₁ w₂ w₃,
    keygenMain onesGmp (fun _ => 0) [.b 53, .i 0] ['u'] 7 1
      ⟨fun path => if path = "x" then some ['A', 'B'] else none, [], []⟩ = some w₁ ∧
    encryptMain [.i "x", .o "c"] [] w₁ = some w₂ ∧
    decryptMain [.i "c", .o "y"] w₂ = some w₃ ∧ w₃.files "y" = some ['A', 'B'] := by
  obtain ⟨w₁, w₂, hkeygen, hencrypt, hround, -⟩ := programs_restore_iff oneLetter [] [65, 66]
    (show (keygenOptions [.b 53, .i 0] keygenDefaults
      ⟨fun path => if path = "x" then some ['A', 'B'] else none, [], []⟩).1 = _ from rfl)
    (show ∀ w, (cryptOptions [.i "x", .o "c"] _ w).1 = _ from fun _ => rfl)
    (show ∀ w, (cryptOptions [.i "c", .o "y"] _ w).1 = _ from fun _ => rfl)
    mersenneKeys_made (show Nat.Prime 131071 by norm_num) (show Nat.Prime 524287 by norm_num)
    mersenneKeys_usable (by decide) mersenneKeys_short (by rw [mersenneKeys_blocks]; decide)
    (by decide) (by decide) (by decide) rfl
  have hfits : encryptBlockSize mersenneKeys.n + 1 ≤ decryptBlockSize (131071 * 524287) := by
    rw [mersenneKeys_blocks, small_key_blocks.2]
  rw [mersenneKeys_blocks] at hround hfits
  obtain ⟨w₃, hdecrypt, hfile⟩ := hround.mpr ⟨by decide, Or.inr hfits⟩
  exact ⟨w₁, w₂, w₃, hkeygen, hencrypt, hdecrypt, hfile⟩

end Pipeline

/-! ## Verbose output -/

section Verbose

variable {eoptions doptions : List CryptOpt} {w w₂ : World Char} {input output : Option String}
  {k k' : String} {v : Bool}

/-- `decrypt` does not get over a line that begins with a letter which is no digit. -/
theorem ss_decrypt_file_letter {text : List Char}
    (h : text.head? = some 'S' ∨ text.head? = some 'u') (d : ℤ) (pq : ℕ) :
    ss_decrypt_file text d pq = none := by
  have hletter : ∀ c text, c = 'S' ∨ c = 'u' → ss_decrypt_file (c :: text) d pq = none := by
    intro c text hc
    have hline : lineOf 1023 (c :: text) = c :: lineOf 1022 text :=
      if_neg (by rcases hc with rfl | rfl <;> decide)
    have hset : mpz_set_str (cString (c :: lineOf 1022 text)) = none := by
      rcases hc with rfl | rfl
      all_goals
        rw [cString, List.takeWhile_cons_of_pos (by decide), mpz_set_str,
          List.dropWhile_cons_of_neg (by decide)]
        rfl
    rw [ss_decrypt_file, decryptLoop, if_neg (List.cons_ne_nil _ _)]
    simp only [hline, hset, Option.bind_eq_bind, Option.bind_none]
  cases text with
  | nil => simp at h
  | cons c text => exact hletter c text (by simpa using h)

/-- A program that reads `stdin` fails where it cannot make anything of this. -/
theorem cryptMain_stdin_none {κ : Type} {key_filename : String} {readKey : List Char → Option κ}
    {verboseKey : κ → List Char} {crypt : κ → List Char → Option (List Char)}
    {options : List CryptOpt} (hoptions :
      (cryptOptions options ⟨none, none, key_filename, false⟩ w).1 = some ⟨none, output, k, v⟩)
    (hcrypt : ∀ key, crypt key w.stdin = none) :
    cryptMain key_filename readKey verboseKey crypt options w = none := by
  obtain ⟨usage, hworld, -⟩ := cryptOptions_world options ⟨none, none, key_filename, false⟩ w
  rw [cryptMain]
  generalize cryptOptions options ⟨none, none, key_filename, false⟩ w = parsed at hoptions hworld
  obtain ⟨settings, w'⟩ := parsed
  dsimp only at hoptions hworld
  subst hoptions hworld
  cases v <;> cases output <;>
    simp [hcrypt, CryptSettings.openInput, CryptSettings.openOutput, World.read, World.write,
      World.openWrite]

/-- A verbose program without `-o` writes its key between the usage and the data. -/
theorem cryptMain_verbose_stdout {κ : Type} {key_filename : String}
    {readKey : List Char → Option κ} {verboseKey : κ → List Char}
    {crypt : κ → List Char → Option (List Char)} {options : List CryptOpt} (hoptions :
      (cryptOptions options ⟨none, none, key_filename, false⟩ w).1 = some ⟨input, none, k, true⟩)
    (hrun : cryptMain key_filename readKey verboseKey crypt options w = some w₂) :
    ∃ usage key out, (usage = [] ∨ usage.head? = some 'S') ∧
      w₂.stdout = w.stdout ++ (usage ++ (verboseKey key ++ out)) := by
  obtain ⟨usage, hworld, husage⟩ :=
    cryptOptions_world options ⟨none, none, key_filename, false⟩ w
  rw [cryptMain] at hrun
  generalize cryptOptions options ⟨none, none, key_filename, false⟩ w = parsed
    at hoptions hworld hrun
  obtain ⟨settings, w'⟩ := parsed
  dsimp only at hoptions hworld
  subst hoptions hworld
  obtain ⟨key_file, -, hrun⟩ := Option.bind_eq_some_iff.mp hrun
  obtain ⟨key, -, hrun⟩ := Option.bind_eq_some_iff.mp hrun
  obtain ⟨input_file, -, hrun⟩ := Option.bind_eq_some_iff.mp hrun
  obtain ⟨infile, -, hrun⟩ := Option.bind_eq_some_iff.mp hrun
  obtain ⟨out, -, hrun⟩ := Option.bind_eq_some_iff.mp hrun
  obtain rfl := Option.some.inj hrun
  exact ⟨usage, key, out, husage, by simp [World.write]⟩

/-- Without `-o`, `encrypt -v` prints its key in front of the encrypted data, and from its
output `decrypt` gets nothing. -/
theorem verbose_output_unreadable (garbage : List UInt8)
    (heoptions : (cryptOptions eoptions ⟨none, none, "ss.pub", false⟩ w).1 =
      some ⟨input, none, k, true⟩)
    (hdoptions : ∀ w, (cryptOptions doptions ⟨none, none, "ss.priv", false⟩ w).1 =
      some ⟨none, output, k', v⟩)
    (hstdout : w.stdout = []) (hencrypt : encryptMain eoptions garbage w = some w₂) :
    decryptMain doptions { w₂ with stdin := w₂.stdout } = none := by
  obtain ⟨usage, key, out, husage, hout⟩ := cryptMain_verbose_stdout heoptions hencrypt
  rw [hstdout, List.nil_append] at hout
  have hhead : w₂.stdout.head? = some 'S' ∨ w₂.stdout.head? = some 'u' := by
    rw [hout]
    rcases husage with rfl | husage
    · exact .inr rfl
    · exact .inl (by simp [husage])
  apply cryptMain_stdin_none (hdoptions _)
  rintro ⟨pq, d⟩
  exact congrArg (Option.map ofBytes) (ss_decrypt_file_letter hhead d pq.toNat)

/-- An empty input under a key on the default file. -/
theorem verbose_output_unreadable_empty : ∃ w₂,
    encryptMain [.v] [] ⟨fun path => if path = "ss.pub" then some mersenneKeys.pbfile else none,
      [], []⟩ = some w₂ ∧ decryptMain [] { w₂ with stdin := w₂.stdout } = none := by
  obtain ⟨hread, -⟩ := key_files_read oneLetter mersenneKeys_made (by decide) mersenneKeys_short
  obtain ⟨text, htext, -⟩ := key_decodes mersenneKeys_made (show Nat.Prime 131071 by norm_num)
    (show Nat.Prime 524287 by norm_num) mersenneKeys_usable mersenneKeys_short
    (by rw [mersenneKeys_blocks]; decide) [] []
  have hrun : ∃ w₂, encryptMain [.v] [] ⟨fun path => if path = "ss.pub" then
      some mersenneKeys.pbfile else none, [], []⟩ = some w₂ := by
    simp [encryptMain, cryptMain, cryptOptions, World.openRead, World.read, World.write, hread,
      toBytes, htext, CryptSettings.openInput, CryptSettings.openOutput]
  obtain ⟨w₂, hw₂⟩ := hrun
  exact ⟨w₂, hw₂, verbose_output_unreadable [] rfl (fun _ => rfl) rfl hw₂⟩

end Verbose

end FavoriteAssignments.SchmidtSamoa
