import FavoriteAssignments.Lz78.SymStream
import FavoriteAssignments.Lz78.Widths

/-! # The loops

`encode` ends, on the pairs of the symbols that `read_sym` returned. `decode` takes one
pair after the other from the file, each with the width it was written with. -/

namespace FavoriteAssignments.Lz78

open PhraseDictionary Bits

/-! ## The compression loop -/

theorem write_pairs_append (w : BitWriter) (pairs pairs' : List Pair) :
    write_pairs w (pairs ++ pairs') = write_pairs (write_pairs w pairs) pairs' := by
  simp [write_pairs]

/-- The compression loop, with the pairs instead of the file. -/
def encodeTrace : ℕ → SymReader → Encoder → List Pair → Option (Encoder × List Pair)
  | 0, _, _, _ => none
  | fuel + 1, r, e, pairs =>
      match read_sym r with
      | (r, curr_sym, true) =>
          let next := encodeSym e curr_sym
          encodeTrace fuel r next.1 (pairs ++ next.2)
      | (_, _, false) => some (e, pairs)

/-- Every pair that `encode` writes, the stop pair last. -/
def encodedPairs (fuel : ℕ) (infile : List UInt8) : Option (List Pair) :=
  match encodeTrace fuel (symReaderStart infile) encoderStart [] with
  | none => none
  | some (e, pairs) =>
      (encodePending e).map fun pending =>
        pairs ++ pending.1 ++ [⟨STOP_CODE, 0, bitlen pending.2⟩]

theorem encodeLoop_trace (fuel : ℕ) (r : SymReader) (e : Encoder) (w : BitWriter)
    (pairs : List Pair) :
    encodeLoop fuel r e (write_pairs w pairs) =
      (encodeTrace fuel r e pairs).map fun out => (out.1, write_pairs w out.2) := by
  induction fuel generalizing r e pairs with
  | zero => rfl
  | succ fuel ih =>
      rw [encodeLoop, encodeTrace]
      rcases read_sym r with ⟨r', sym, more⟩
      cases more with
      | false => rfl
      | true => simp only [← write_pairs_append, ih]

/-- The file of `encode` holds these pairs. -/
theorem encode_pairs (big_endian : Bool) (mode fuel : ℕ) (infile : List UInt8) :
    encode big_endian mode fuel infile =
      (encodedPairs fuel infile).map fun pairs => flush_pairs (write_pairs
        ⟨write_header big_endian [] ⟨MAGIC, mode % 2 ^ 16⟩, fun _ => 0, 0, 64⟩ pairs) := by
  generalize hw : (⟨write_header big_endian [] ⟨MAGIC, mode % 2 ^ 16⟩, fun _ => 0, 0, 64⟩ :
    BitWriter) = w
  have hloop : encodeLoop fuel (symReaderStart infile) encoderStart w =
      (encodeTrace fuel (symReaderStart infile) encoderStart []).map
        fun out => (out.1, write_pairs w out.2) :=
    encodeLoop_trace fuel (symReaderStart infile) encoderStart w []
  simp only [encode, encodedPairs, hw, hloop]
  cases encodeTrace fuel (symReaderStart infile) encoderStart [] with
  | none => rfl
  | some out =>
      simp only [Option.map_some, Option.map_map, Function.comp_def, write_pairs_append]
      rfl

/-- The loop ends on the pairs of what was delivered, and on no others. -/
theorem encodeTrace_delivered {s : SymReader} {syms : List UInt8} (h : Delivered s syms)
    (r : SymReader) (hr : r.refill = s) (e : Encoder) (pairs : List Pair) :
    (∃ fuel, encodeTrace fuel r e pairs =
        some ((encodeSyms e syms).1, pairs ++ (encodeSyms e syms).2)) ∧
      ∀ fuel out, encodeTrace fuel r e pairs = some out →
        out = ((encodeSyms e syms).1, pairs ++ (encodeSyms e syms).2) := by
  induction h generalizing r e pairs with
  | stop hstop =>
      subst hr
      have hend : ∀ fuel, encodeTrace (fuel + 1) r e pairs = some (e, pairs) := fun fuel => by
        rw [encodeTrace, read_sym_eq hstop]
      rw [encodeSyms, List.append_nil]
      refine ⟨⟨1, hend 0⟩, fun fuel out hout => ?_⟩
      cases fuel with
      | zero => cases hout
      | succ fuel => exact (Option.some.inj ((hend fuel).symm.trans hout)).symm
  | @more _ syms hmore _ ih =>
      subst hr
      have hstep : ∀ fuel, encodeTrace (fuel + 1) r e pairs =
          encodeTrace fuel r.refill.deliver.1 (encodeSym e r.refill.deliver.2.1).1
            (pairs ++ (encodeSym e r.refill.deliver.2.1).2) := fun fuel => by
        rw [encodeTrace, read_sym_eq hmore]
      obtain ⟨⟨last, hlast⟩, hunique⟩ := ih r.refill.deliver.1 rfl
        (encodeSym e r.refill.deliver.2.1).1 (pairs ++ (encodeSym e r.refill.deliver.2.1).2)
      rw [encodeSyms, ← List.append_assoc]
      refine ⟨⟨last + 1, (hstep last).trans hlast⟩, fun fuel out hout => ?_⟩
      cases fuel with
      | zero => cases hout
      | succ fuel => exact hunique fuel out ((hstep fuel).symm.trans hout)

/-! ## The decompression loop -/

theorem decodeLoop_add {big_endian : Bool} {fuel : ℕ} {r : BitReader} {d : Decoder}
    {w out : SymWriter} (h : decodeLoop big_endian fuel r d w = some out) (extra : ℕ) :
    decodeLoop big_endian (fuel + extra) r d w = some out := by
  induction fuel generalizing r d w with
  | zero => cases h
  | succ fuel ih =>
      rw [Nat.add_right_comm]
      rw [decodeLoop] at h ⊢
      split at h
      · split at h
        · cases h
        · exact ih h
      · exact h

theorem decode_add {big_endian : Bool} {fuel : ℕ} {infile file : List UInt8}
    (h : decode big_endian fuel infile = some file) (extra : ℕ) :
    decode big_endian (fuel + extra) infile = some file := by
  obtain ⟨w, hloop, rfl⟩ := Option.map_eq_some_iff.mp h
  exact Option.map_eq_some_iff.mpr ⟨w, decodeLoop_add hloop extra, rfl⟩

theorem decode_unique {big_endian : Bool} {fuel fuel' : ℕ} {infile file file' : List UInt8}
    (h : decode big_endian fuel infile = some file)
    (h' : decode big_endian fuel' infile = some file') : file = file' := by
  have hfile := decode_add h fuel'
  rw [Nat.add_comm, decode_add h' fuel] at hfile
  exact (Option.some.inj hfile).symm

/-! ## The file -/

theorem length_write_header (big_endian : Bool) (header : FileHeader) :
    (write_header big_endian [] header).length = 8 := by
  cases big_endian <;> simp [write_header, memory]

theorem read_header_write_header (big_endian : Bool) (header : FileHeader) (body : List UInt8) :
    read_header (write_header big_endian [] header ++ body) = body := by
  rw [read_header, read_bytes_eq _ _ (by decide)]
  exact List.drop_left' (length_write_header big_endian header)

theorem pairBits_stop (width : ℕ) :
    pairBits width STOP_CODE 0 = List.replicate (width + 8) false := by
  have hbyte : ofByte 0 = List.replicate 8 false := by decide
  rw [pairBits, hbyte, List.replicate_add]
  congr 1
  exact List.eq_replicate_iff.mpr ⟨by simp, by simp [STOP_CODE]⟩

/-- The text ends inside a word, whose pair fills the dictionary. -/
def EndsFull (text : List UInt8) : Prop :=
  (Parser.start.feed capacity text).1.current ≠ [] ∧
    (phrases capacity text).length % (capacity - 1) = 0

/-- All pairs but the last, and the code whose width the last one has: that of the place
after the pairs, unless a pair for an unfinished word has just filled the dictionary. -/
theorem encodePending_place (syms : List UInt8) :
    ∃ pending, encodePending (encodeSyms encoderStart syms).1 = some pending ∧
      (encodeSyms encoderStart syms).2 ++ pending.1 = pairsFrom 1 (phrases capacity syms) ∧
      (EndsFull syms → pending.2 = 0) ∧
      (¬EndsFull syms →
        pending.2 = START_CODE + (phrases capacity syms).length % (capacity - 1)) := by
  obtain ⟨⟨nodes, htracks⟩, hpairs⟩ := Tracks.start.feed syms
  obtain ⟨next_code, hpending, hnext⟩ := htracks.pending
  have hwords := feed_length capacity Parser.start syms
  refine ⟨_, hpending, ?_, ?_⟩
  · rw [hpairs, hwords, phrases, pairsFrom_append]
    rfl
  · have hplace : nodes.length = 1 +
        (Parser.start.feed capacity syms).2.length % (capacity - 1) := by
      rw [← htracks.words_length, hwords, ← nextLength_iterate (by decide)]
      rfl
    have hroom := htracks.room
    rw [htracks.next_code, hplace] at hnext
    rw [hplace] at hroom
    rw [EndsFull, phrases, List.length_append, pending_length]
    generalize (Parser.start.feed capacity syms).2.length = n at hnext hroom ⊢
    by_cases hnil : (Parser.start.feed capacity syms).1.current = []
    · rw [if_pos hnil] at hnext ⊢
      refine ⟨fun hfull => absurd hnil hfull.1, fun _ => ?_⟩
      simp only [START_CODE, Nat.add_zero] at hnext ⊢
      omega
    · rw [if_neg hnil] at hnext ⊢
      constructor
      · intro hfull
        have hmod := hfull.2
        simp only [capacity, MAX_CODE, EMPTY_CODE] at hnext hroom hmod ⊢
        omega
      · intro hopen
        have hmod : (n + 1) % (capacity - 1) ≠ 0 := fun hzero => hopen ⟨hnil, hzero⟩
        simp only [START_CODE, capacity, MAX_CODE, EMPTY_CODE] at hnext hroom hmod ⊢
        omega

/-- The pairs are those of the phrases, and a stop pair whose width is 0 if the text ends
full. -/
theorem encodedPairs_eq (infile : List UInt8) :
    ∃ last, (EndsFull (delivered infile) → last = 0) ∧
      (¬EndsFull (delivered infile) →
        last = START_CODE + (phrases capacity (delivered infile)).length % (capacity - 1)) ∧
      (∃ fuel, encodedPairs fuel infile = some
        (pairsFrom 1 (phrases capacity (delivered infile)) ++ [⟨STOP_CODE, 0, bitlen last⟩])) ∧
      ∀ fuel pairs, encodedPairs fuel infile = some pairs →
        pairs = pairsFrom 1 (phrases capacity (delivered infile)) ++
          [⟨STOP_CODE, 0, bitlen last⟩] := by
  obtain ⟨pending, hpending, hpairs, hfull, hopen⟩ := encodePending_place (delivered infile)
  have hfile : Delivered (symReaderStart infile).refill (delivered infile) :=
    delivered_file infile (fun _ => 0) 0
  obtain ⟨⟨last, hlast⟩, hunique⟩ := encodeTrace_delivered hfile _ rfl encoderStart []
  rw [List.nil_append] at hlast hunique
  refine ⟨pending.2, hfull, hopen, ⟨last, ?_⟩, fun fuel pairs h => ?_⟩
  · rw [encodedPairs, hlast]
    simp only [hpending, Option.map_some, hpairs]
  · rw [encodedPairs] at h
    cases htrace : encodeTrace fuel (symReaderStart infile) encoderStart [] with
    | none =>
        rw [htrace] at h
        cases h
    | some out =>
        obtain rfl := hunique fuel out htrace
        rw [htrace] at h
        simp only [hpending, Option.map_some, hpairs] at h
        exact (Option.some.inj h).symm

theorem encode_unique {big_endian : Bool} {mode fuel fuel' : ℕ} {infile file file' : List UInt8}
    (h : encode big_endian mode fuel infile = some file)
    (h' : encode big_endian mode fuel' infile = some file') : file = file' := by
  obtain ⟨last, -, -, -, hunique⟩ := encodedPairs_eq infile
  rw [encode_pairs] at h h'
  obtain ⟨pairs, hpairs, rfl⟩ := Option.map_eq_some_iff.mp h
  obtain ⟨pairs', hpairs', rfl⟩ := Option.map_eq_some_iff.mp h'
  rw [hunique fuel pairs hpairs, hunique fuel' pairs' hpairs']

/-- After the pairs the file has room for the code the decoder reads next, all zero. -/
theorem encode_file (big_endian : Bool) (mode : ℕ) (syms : List UInt8) :
    ∃ body n,
      (∃ fuel, encode big_endian mode fuel syms =
        some (write_header big_endian [] ⟨MAGIC, mode % 2 ^ 16⟩ ++ body)) ∧
      ofBytes body =
        pairsBits (pairsFrom 1 (phrases capacity (delivered syms))) ++ List.replicate n false ∧
      width (phrases capacity (delivered syms)).length ≤ n := by
  obtain ⟨last, hends, hopen, ⟨fuel, hpairs⟩, -⟩ := encodedPairs_eq syms
  obtain ⟨body, rest, hfile, hbits, hrest⟩ :=
    ((Written.start (write_header big_endian [] ⟨MAGIC, mode % 2 ^ 16⟩) 64).write_pairs
      (pairsFrom 1 (phrases capacity (delivered syms)) ++
        [⟨STOP_CODE, 0, bitlen last⟩])).flush_pairs
  rw [List.nil_append, pairsBits_append, pairsBits_cons, pairBits_stop,
    show pairsBits [] = [] from rfl, List.append_nil] at hbits hrest
  dsimp only at hbits hrest
  rw [List.length_append, List.length_replicate] at hrest
  have hlength : (pairsBits (pairsFrom 1 (phrases capacity (delivered syms)))).length =
      ∑ j ∈ Finset.range (phrases capacity (delivered syms)).length, (width j + 8) := by
    simpa using length_pairsBits 0 (phrases capacity (delivered syms))
  have hlt : rest.length < 8 := by
    rw [hrest]
    exact Nat.mod_lt _ (by decide)
  refine ⟨body, bitlen last + 8 - rest.length, ⟨fuel, ?_⟩, ?_, ?_⟩
  · rw [encode_pairs, hpairs, Option.map_some, hfile]
  · exact front_of_append_replicate hbits (by omega)
  · by_cases hfull : EndsFull (delivered syms)
    · -- the width of the stop pair is 0, and all pairs together make whole bytes
      have hbytes := whole_periods rfl hfull.2
      have htwo : width (phrases capacity (delivered syms)).length = 2 := by
        rw [width, hfull.2]
        rfl
      have hempty : bitlen 0 = 0 := rfl
      rw [hlength, hends hfull, hempty] at hrest
      rw [htwo, hends hfull, hempty]
      omega
    · rw [hopen hfull, ← width]
      omega

/-! ## Following the pairs -/

/-- The decoder before the pair in place `i`, with the words it knows, what it has written
and the bits still to come. -/
structure Decoding (i : ℕ) (words : List Word) (out : List UInt8) (bits : List Bool)
    (r : BitReader) (d : Decoder) (w : SymWriter) : Prop where
  length : words.length = 1 + i % (capacity - 1)
  first : words[0]? = some []
  knows : Knows d words
  ahead : Ahead r bits
  emitted : Emitted w out

theorem decodeLoop_stop {big_endian : Bool} {r : BitReader} {d : Decoder}
    (h : (read_pair big_endian r (bitlen d.next_code)).2.2.2 = false) (fuel : ℕ)
    (w : SymWriter) : decodeLoop big_endian (fuel + 1) r d w = some w := by
  rw [decodeLoop]
  split
  · next hread =>
      rw [hread] at h
      cases h
  · rfl

theorem decodeLoop_more {big_endian : Bool} {r r' : BitReader} {d : Decoder} {code : ℕ}
    {sym : UInt8} (h : read_pair big_endian r (bitlen d.next_code) = (r', code, sym, true))
    (fuel : ℕ) (w : SymWriter) :
    decodeLoop big_endian (fuel + 1) r d w =
      (decodePair d code sym).bind fun next =>
        decodeLoop big_endian fuel r' next.1 (write_word w next.2) := by
  rw [decodeLoop, h]
  cases hpair : decodePair d code sym with
  | none => simp [hpair]
  | some next => simp [hpair]

namespace Decoding

variable {big_endian : Bool} {i a code : ℕ} {words words' : List Word} {word : Word}
  {out text : List UInt8} {bits : List Bool} {sym : UInt8}
  {r : BitReader} {d : Decoder} {w : SymWriter}

theorem start (body : List UInt8) (bits : List Bool) (h : ofBytes body = bits) :
    Decoding 0 [[]] [] bits ⟨body, fun _ => 0, 0, 64⟩ decoderStart ⟨[], fun _ => 0, 0, 0⟩ where
  length := rfl
  first := rfl
  knows := Knows.start
  ahead := Or.inl ⟨rfl, h.symm⟩
  emitted := rfl

theorem bitlen_next_code (h : Decoding i words out bits r d w) : bitlen d.next_code = width i :=
  h.knows.bitlen_next_code h.length

/-- The loop ends at the zeros after the last pair. -/
theorem stop {n : ℕ} (h : Decoding i words out (List.replicate n false) r d w)
    (hn : width i ≤ n) (fuel : ℕ) : decodeLoop big_endian (fuel + 1) r d w = some w := by
  apply decodeLoop_stop
  rw [h.bitlen_next_code]
  have hsplit : List.replicate n false =
      List.replicate (width i) false ++ List.replicate (n - width i) false := by
    rw [← List.replicate_add, Nat.add_sub_cancel' hn]
  exact read_pair_stop big_endian (hsplit ▸ h.ahead)

/-- A code that is read as the stop code ends the loop. -/
theorem early_stop (h : Decoding i words out (pairBits (width i) code sym ++ bits) r d w)
    (hcode : seen big_endian (width i) code = STOP_CODE) (fuel : ℕ) :
    decodeLoop big_endian (fuel + 1) r d w = some w := by
  apply decodeLoop_stop
  obtain ⟨r', -, hread⟩ := read_pair_eq big_endian (width_le i) h.ahead
  rw [h.bitlen_next_code, hread, hcode]
  rfl

theorem read (h : Decoding i words out (pairBits (width i) code sym ++ bits) r d w)
    (hcode : seen big_endian (width i) code = a + 1) :
    ∃ r', Ahead r' bits ∧
      read_pair big_endian r (bitlen d.next_code) = (r', a + 1, sym, true) := by
  obtain ⟨r', hahead, hread⟩ := read_pair_eq big_endian (width_le i) h.ahead
  refine ⟨r', hahead, ?_⟩
  rw [h.bitlen_next_code, hread, hcode]
  simp [STOP_CODE]

/-- A pair is read as that of the word its code has become. -/
theorem step (h : Decoding i words out (pairBits (width i) code sym ++ bits) r d w)
    (hcode : seen big_endian (width i) code = a + 1)
    (hstep : unstep capacity words (a, sym) = some (words', word)) :
    ∃ r' d' w', Decoding (i + 1) words' (out ++ word) bits r' d' w' ∧
      ∀ fuel, decodeLoop big_endian (fuel + 1) r d w = decodeLoop big_endian fuel r' d' w' := by
  obtain ⟨r', hahead, hread⟩ := h.read hcode
  obtain ⟨d', hd', hknows⟩ := h.knows.decodePair h.first hstep
  obtain ⟨u, -, rfl, rfl⟩ : ∃ u, words[a]? = some u ∧
      learn capacity words (u ++ [sym]) = words' ∧ u ++ [sym] = word := by
    simpa [unstep, Option.map_eq_some_iff] using hstep
  refine ⟨r', d', write_word w (u ++ [sym]), ⟨?_, learn_first h.first _, hknows, hahead,
    h.emitted.write_word _⟩, fun fuel => ?_⟩
  · rw [learn_length, h.length, nextLength_place]
  · rw [decodeLoop_more hread, hd']
    rfl

/-- A code that is not in use leaves the table. -/
theorem no_word (h : Decoding i words out (pairBits (width i) code sym ++ bits) r d w)
    (hcode : seen big_endian (width i) code = a + 1) (hnone : words[a]? = none) (fuel : ℕ) :
    decodeLoop big_endian (fuel + 1) r d w = none := by
  obtain ⟨r', -, hread⟩ := h.read hcode
  have hpair : decodePair d (a + 1) sym = none := by
    rw [decodePair]
    split
    · next hlt =>
        have hcap : a < capacity := by
          simp only [capacity, MAX_CODE, EMPTY_CODE] at hlt ⊢
          omega
        rw [h.knows.table a hcap, hnone]
        rfl
    · rfl
  rw [decodeLoop_more hread, hpair]
  rfl

end Decoding

end FavoriteAssignments.Lz78
