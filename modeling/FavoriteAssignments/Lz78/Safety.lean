import FavoriteAssignments.Lz78.Synchronisation

/-! # Any file

`decode` on a file that need not come from `encode`. The pairs have fixed places, so what
the loop takes from a file can be said before it runs: behind the end of the file it takes
the bits that earlier blocks have left in the buffer. -/

namespace FavoriteAssignments.Lz78

open PhraseDictionary Bits

/-! ## The bits of a file -/

/-- The bit buffer after `k` blocks. -/
def blockBuffer (body : List UInt8) : ℕ → Buffer
  | 0 => fun _ => 0
  | k + 1 => (blockBuffer body k).store 0 ((body.drop (BLOCK * k)).take BLOCK)

/-- Bit `p` of what `read_pair` takes. -/
def streamBit (body : List UInt8) (p : ℕ) : Bool :=
  bitAt (blockBuffer body (p / (BITS * BLOCK) + 1)) (p % (BITS * BLOCK))

theorem blockBuffer_succ (body : List UInt8) (k : ℕ) {o : ℕ} (ho : o < BLOCK) :
    blockBuffer body (k + 1) o = body[BLOCK * k + o]?.getD (blockBuffer body k o) := by
  simp [blockBuffer, Buffer.store, ho, List.getElem?_drop]

theorem streamBit_eq (body : List UInt8) (p : ℕ) :
    streamBit body p = (body[p / 8]?.getD (blockBuffer body (p / (BITS * BLOCK))
      (p % (BITS * BLOCK) / 8))).toNat.testBit (p % 8) := by
  have hbyte : BLOCK * (p / (BITS * BLOCK)) + p % (BITS * BLOCK) / 8 = p / 8 := by
    simp only [BITS, BLOCK]
    omega
  have hbit : p % (BITS * BLOCK) % 8 = p % 8 := by
    simp only [BITS, BLOCK]
    omega
  have hinside : p % (BITS * BLOCK) / 8 < BLOCK := by
    simp only [BITS, BLOCK]
    omega
  rw [streamBit, bitAt, blockBuffer_succ body _ hinside, hbyte, hbit]

/-- Inside the file these are its bits. -/
theorem streamBit_inside {body : List UInt8} {p : ℕ} (h : p < 8 * body.length) :
    (ofBytes body)[p]? = some (streamBit body p) := by
  have hlt : p / 8 < body.length := by omega
  have hbits := ofBytes_map_range (Buffer.store (fun _ => 0) 0 body) body.length
  rw [map_store] at hbits
  rw [hbits, List.getElem?_map, List.getElem?_range h, streamBit_eq, Option.map_some, bitAt]
  simp [Buffer.store, List.getElem?_eq_getElem hlt]

/-- Behind its end they are those of a block before. -/
theorem streamBit_behind {body : List UInt8} {p : ℕ} (h : 8 * body.length ≤ p) :
    streamBit body p =
      if p < BITS * BLOCK then false else streamBit body (p - BITS * BLOCK) := by
  have hnone : body[p / 8]? = none := List.getElem?_eq_none (by omega)
  rw [streamBit_eq, hnone, Option.getD_none]
  split
  · next hfirst => simp [Nat.div_eq_of_lt hfirst, blockBuffer]
  · next hlater =>
      have hblock : p / (BITS * BLOCK) = (p - BITS * BLOCK) / (BITS * BLOCK) + 1 := by
        simp only [BITS, BLOCK] at hlater ⊢
        omega
      have hindex : p % (BITS * BLOCK) = (p - BITS * BLOCK) % (BITS * BLOCK) := by
        simp only [BITS, BLOCK] at hlater ⊢
        omega
      have hbit : p % 8 = (p - BITS * BLOCK) % (BITS * BLOCK) % 8 := by
        simp only [BITS, BLOCK] at hlater ⊢
        omega
      rw [hblock, hindex, hbit]
      rfl

/-- The bits before the pair in place `i`. -/
def place (i : ℕ) : ℕ := ∑ j ∈ Finset.range i, (width j + BITS)

/-- The code of `width` bits that is taken from bit `p` on. -/
def codeFrom (big_endian : Bool) (body : List UInt8) (p width : ℕ) : ℕ :=
  let code := value ((List.range width).map fun bit => streamBit body (p + bit))
  if big_endian then swap16 code else code

/-- The code that is taken in place `i`. -/
def codeAt (big_endian : Bool) (body : List UInt8) (i : ℕ) : ℕ :=
  codeFrom big_endian body (place i) (width i)

theorem place_succ (i : ℕ) : place (i + 1) = place i + (width i + BITS) :=
  Finset.sum_range_succ (fun j => width j + BITS) i

/-- A reader that has taken `p` bits. -/
structure Placed (body : List UInt8) (p : ℕ) (r : BitReader) : Prop where
  index : r.bit_index = p % (BITS * BLOCK)
  infile : r.infile = body.drop (BLOCK * ((p + (BITS * BLOCK - 1)) / (BITS * BLOCK)))
  buffer : r.bit_buffer = blockBuffer body ((p + (BITS * BLOCK - 1)) / (BITS * BLOCK))

namespace Placed

variable {body : List UInt8} {p : ℕ} {r : BitReader}

theorem start (body : List UInt8) (total_bits : ℕ) :
    Placed body 0 ⟨body, fun _ => 0, 0, total_bits⟩ := ⟨rfl, rfl, rfl⟩

theorem refill (h : Placed body p r) :
    r.refill.bit_index = p % (BITS * BLOCK) ∧
      r.refill.infile = body.drop (BLOCK * (p / (BITS * BLOCK) + 1)) ∧
      r.refill.bit_buffer = blockBuffer body (p / (BITS * BLOCK) + 1) := by
  obtain ⟨hindex, hinfile, hbuffer⟩ := h
  unfold BitReader.refill
  split
  · next hzero =>
      have hblocks : (p + (BITS * BLOCK - 1)) / (BITS * BLOCK) = p / (BITS * BLOCK) := by
        simp only [BITS, BLOCK] at hindex hzero ⊢
        omega
      rw [hblocks] at hinfile hbuffer
      rw [read_bytes_eq _ _ (by decide)]
      refine ⟨hindex, ?_, ?_⟩
      · rw [Nat.mul_succ, ← List.drop_drop, ← hinfile]
      · rw [blockBuffer, ← hinfile, ← hbuffer]
  · next hpos =>
      have hblocks : (p + (BITS * BLOCK - 1)) / (BITS * BLOCK) = p / (BITS * BLOCK) + 1 := by
        simp only [BITS, BLOCK] at hindex hpos ⊢
        omega
      rw [hblocks] at hinfile hbuffer
      exact ⟨hindex, hinfile, hbuffer⟩

theorem getBit (h : Placed body p r) :
    Placed body (p + 1) r.getBit.1 ∧ r.getBit.2 = (streamBit body p).toNat ∧
      r.getBit.1.total_bits = r.total_bits := by
  obtain ⟨hindex, hinfile, hbuffer⟩ := h.refill
  have hblocks : (p + 1 + (BITS * BLOCK - 1)) / (BITS * BLOCK) = p / (BITS * BLOCK) + 1 := by
    simp only [BITS, BLOCK]
    omega
  refine ⟨⟨?_, ?_, ?_⟩, ?_, ?_⟩
  · change (r.refill.bit_index + 1) % (BITS * BLOCK) = _
    rw [hindex, Nat.mod_add_mod]
  · rw [hblocks]
    exact hinfile
  · rw [hblocks]
    exact hbuffer
  · change ((r.refill.bit_buffer (r.refill.bit_index / 8)).toNat >>>
      (r.refill.bit_index % 8)) &&& 1 = _
    rw [hbuffer, hindex, shiftRight_and_one]
    rfl
  · unfold BitReader.getBit
    dsimp only
    split <;> rfl

theorem getBits (h : Placed body p r) (count : ℕ) :
    Placed body (p + count) (r.getBits count).1 ∧
      (r.getBits count).2 =
        value ((List.range count).map fun bit => streamBit body (p + bit)) ∧
      (r.getBits count).1.total_bits = r.total_bits := by
  induction count with
  | zero => exact ⟨h, rfl, rfl⟩
  | succ count ih =>
      obtain ⟨hplaced, hvalue, htotal⟩ := ih
      obtain ⟨hnext, hbit, hsame⟩ := hplaced.getBit
      rw [getBits_succ]
      refine ⟨hnext, ?_, hsame.trans htotal⟩
      rw [List.range_succ, List.map_append, List.map_singleton, value_concat, List.length_map,
        List.length_range, ← hbit, ← hvalue]

theorem read_pair (big_endian : Bool) (h : Placed body p r) {width : ℕ} (hwidth : width ≤ 16) :
    (read_pair big_endian r width).2.1 = codeFrom big_endian body p width ∧
      Placed body (p + (width + BITS)) (read_pair big_endian r width).1 ∧
      (read_pair big_endian r width).1.total_bits = r.total_bits + (width + BITS) := by
  obtain ⟨hcode, hvalue, htotal⟩ := h.getBits width
  obtain ⟨hnext, -, htotal'⟩ := hcode.getBits BITS
  have hlt : (r.getBits width).2 < 2 ^ 16 := by
    refine Nat.lt_of_lt_of_le ?_ (Nat.pow_le_pow_right (by decide) hwidth)
    rw [hvalue]
    simpa using value_lt ((List.range width).map fun bit => streamBit body (p + bit))
  unfold Lz78.read_pair codeFrom
  dsimp only
  generalize r.getBits width = code at hvalue htotal hnext htotal' hlt ⊢
  generalize code.1.getBits BITS = sym at hnext htotal' ⊢
  rw [Nat.mod_eq_of_lt hlt, hvalue, htotal', htotal, ← Nat.add_assoc p]
  exact ⟨rfl, ⟨hnext.index, hnext.infile, hnext.buffer⟩, rfl⟩

end Placed

/-! ## Runs -/

/-- The loop of `decode` before a pair, after `i` pairs. -/
inductive Reached (big_endian : Bool) (infile : List UInt8) : ℕ → BitReader → Decoder → Prop where
  | start : Reached big_endian infile 0 ⟨read_header infile, fun _ => 0, 0, 64⟩ decoderStart
  | next {i curr_code : ℕ} {curr_sym : UInt8} {r r' : BitReader} {d d' : Decoder} {word : Word} :
      Reached big_endian infile i r d →
      read_pair big_endian r (bitlen d.next_code) = (r', curr_code, curr_sym, true) →
      decodePair d curr_code curr_sym = some (d', word) → Reached big_endian infile (i + 1) r' d'

/-- Every pair that is decoded has a code of the table with a word, and has been read from
the file alone; and the loop ends. -/
structure DecodesSafely (big_endian : Bool) (infile : List UInt8) : Prop where
  table : ∀ i r d r' curr_code curr_sym, Reached big_endian infile i r d →
    read_pair big_endian r (bitlen d.next_code) = (r', curr_code, curr_sym, true) →
      curr_code < MAX_CODE ∧ d.table curr_code ≠ none
  input : ∀ i r d r' curr_code curr_sym, Reached big_endian infile i r d →
    read_pair big_endian r (bitlen d.next_code) = (r', curr_code, curr_sym, true) →
      r'.total_bits ≤ 64 + 8 * (read_header infile).length
  stops : ∃ fuel out, decode big_endian fuel infile = some out

variable {big_endian : Bool} {infile : List UInt8} {i : ℕ} {r : BitReader} {d : Decoder}

/-- What is known of the loop after `i` pairs. -/
structure Running (body : List UInt8) (i : ℕ) (words : List Word) (r : BitReader) (d : Decoder) :
    Prop where
  length : words.length = 1 + i % (capacity - 1)
  first : words[0]? = some []
  knows : Knows d words
  placed : Placed body (place i) r
  total_bits : r.total_bits = 64 + place i

namespace Running

variable {body : List UInt8} {words : List Word}

theorem read (h : Running body i words r d) (big_endian : Bool) :
    ∃ r' sym, read_pair big_endian r (bitlen d.next_code) = (r', codeAt big_endian body i, sym,
        decide (codeAt big_endian body i ≠ STOP_CODE)) ∧
      Placed body (place (i + 1)) r' ∧ r'.total_bits = 64 + place (i + 1) := by
  obtain ⟨hcode, hplaced, htotal⟩ := h.placed.read_pair big_endian (width_le i)
  rw [← place_succ] at hplaced
  rw [h.total_bits, Nat.add_assoc, ← place_succ] at htotal
  rw [h.knows.bitlen_next_code h.length, codeAt, ← hcode]
  exact ⟨_, _, rfl, hplaced, htotal⟩

/-- The codes with a word are those of the words known by now. -/
theorem defined_iff (h : Running body i words r d) (code : ℕ) :
    code < MAX_CODE ∧ d.table code ≠ none ↔ 1 ≤ code ∧ code ≤ 1 + i % (capacity - 1) := by
  rw [← h.length]
  have hroom := h.knows.room
  cases code with
  | zero => simp [show d.table 0 = none from h.knows.stop]
  | succ a =>
      have hin : a + 1 < MAX_CODE ↔ a < capacity := by
        simp only [capacity, MAX_CODE, EMPTY_CODE]
        omega
      rw [hin]
      constructor
      · rintro ⟨hlt, hword⟩
        rw [h.knows.table a hlt, ne_eq, List.getElem?_eq_none_iff] at hword
        omega
      · rintro ⟨-, hle⟩
        have hlt : a < capacity := by omega
        rw [h.knows.table a hlt, ne_eq, List.getElem?_eq_none_iff]
        omega

/-- A code that is defined is decoded, and the loop goes on. -/
theorem step {code : ℕ} (h : Running body i words r d) (hpos : 1 ≤ code)
    (hle : code ≤ 1 + i % (capacity - 1)) (sym : UInt8) {r' : BitReader}
    (hplaced : Placed body (place (i + 1)) r') (htotal : r'.total_bits = 64 + place (i + 1)) :
    ∃ d' word words', decodePair d code sym = some (d', word) ∧
      Running body (i + 1) words' r' d' := by
  obtain ⟨a, rfl⟩ : ∃ a, code = a + 1 := ⟨code - 1, by omega⟩
  have hlt : a < words.length := by
    rw [h.length]
    omega
  have hstep : unstep capacity words (a, sym) = some _ := unstep_eq (List.getElem?_eq_getElem hlt)
  obtain ⟨d', hd', hknows⟩ := h.knows.decodePair h.first hstep
  refine ⟨d', _, _, hd', ?_, learn_first h.first _, hknows, hplaced, htotal⟩
  rw [learn_length, h.length, nextLength_place]

end Running

theorem decodePair_eq_some {d d' : Decoder} {code : ℕ} {sym : UInt8} {word : Word}
    (h : decodePair d code sym = some (d', word)) : code < MAX_CODE ∧ d.table code ≠ none := by
  unfold decodePair at h
  split at h
  · next hlt =>
      obtain ⟨w, hw, -⟩ := Option.map_eq_some_iff.mp h
      exact ⟨hlt, by simp [hw]⟩
  · cases h

theorem Reached.running (h : Reached big_endian infile i r d) :
    ∃ words, Running (read_header infile) i words r d := by
  induction h with
  | start => exact ⟨[[]], rfl, rfl, Knows.start, Placed.start _ 64, rfl⟩
  | @next i code sym r r' d d' word _ hread hpair ih =>
      obtain ⟨words, hrunning⟩ := ih
      obtain ⟨r₁, sym₁, hread₁, hplaced, htotal⟩ := hrunning.read big_endian
      obtain ⟨rfl, hseen⟩ := Prod.mk.inj (hread.symm.trans hread₁)
      obtain ⟨hpos, hle⟩ := (hrunning.defined_iff code).mp (decodePair_eq_some hpair)
      obtain ⟨d₁, word₁, words₁, hpair₁, hnext⟩ := hrunning.step hpos hle sym hplaced htotal
      obtain ⟨rfl, -⟩ := Prod.mk.inj (Option.some.inj (hpair.symm.trans hpair₁))
      exact ⟨words₁, hnext⟩

/-- The loop counts its pairs in the same way. -/
theorem Reached.next_code (h : Reached big_endian infile i r d) :
    d.next_code = decoderNextCode i := by
  induction h with
  | start => rfl
  | next _ _ hpair ih => exact decodePair_next_code ih hpair

/-- The pair read after `i` others is that of the place `i`, and the loop goes on if its
code is not the stop code. -/
theorem Reached.read (h : Reached big_endian infile i r d) :
    ∃ r' sym, read_pair big_endian r (bitlen d.next_code) =
        (r', codeAt big_endian (read_header infile) i, sym,
          decide (codeAt big_endian (read_header infile) i ≠ STOP_CODE)) ∧
      r'.total_bits = 64 + place (i + 1) := by
  obtain ⟨words, hrunning⟩ := h.running
  obtain ⟨r', sym, hread, -, htotal⟩ := hrunning.read big_endian
  exact ⟨r', sym, hread, htotal⟩

theorem Reached.read_true {r' : BitReader} {code : ℕ} {sym : UInt8}
    (h : Reached big_endian infile i r d)
    (hread : read_pair big_endian r (bitlen d.next_code) = (r', code, sym, true)) :
    code = codeAt big_endian (read_header infile) i ∧
      codeAt big_endian (read_header infile) i ≠ STOP_CODE ∧
      r'.total_bits = 64 + place (i + 1) := by
  obtain ⟨r₁, sym₁, hread₁, htotal⟩ := h.read
  obtain ⟨rfl, hrest⟩ := Prod.mk.inj (hread.symm.trans hread₁)
  obtain ⟨hcode, hlast⟩ := Prod.mk.inj hrest
  exact ⟨hcode, of_decide_eq_true (Prod.mk.inj hlast).2.symm, htotal⟩

theorem Reached.defined_iff (h : Reached big_endian infile i r d) (code : ℕ) :
    code < MAX_CODE ∧ d.table code ≠ none ↔ 1 ≤ code ∧ code ≤ 1 + i % (capacity - 1) := by
  obtain ⟨words, hrunning⟩ := h.running
  exact hrunning.defined_iff code

/-- Before every pair that was decoded the loop was reached, and did not stop. -/
theorem Reached.earlier {n : ℕ} (h : Reached big_endian infile n r d) :
    ∀ i < n, (∃ r d, Reached big_endian infile i r d) ∧
      codeAt big_endian (read_header infile) i ≠ STOP_CODE := by
  induction h with
  | start =>
      intro i hi
      cases hi
  | @next n code sym r r' d d' word hreached hread _ ih =>
      intro i hi
      rcases Nat.lt_succ_iff_lt_or_eq.mp hi with hlt | rfl
      · exact ih i hlt
      · exact ⟨⟨r, d, hreached⟩, (hreached.read_true hread).2.1⟩

/-- A loop that ends does so at a stop code. -/
theorem Reached.stops {fuel : ℕ} {w out : SymWriter} (h : Reached big_endian infile i r d)
    (hloop : decodeLoop big_endian fuel r d w = some out) :
    ∃ n r d, Reached big_endian infile n r d ∧
      codeAt big_endian (read_header infile) n = STOP_CODE := by
  induction fuel generalizing i r d w with
  | zero => cases hloop
  | succ fuel ih =>
      obtain ⟨r', sym, hread, -⟩ := h.read
      by_cases hstop : codeAt big_endian (read_header infile) i = STOP_CODE
      · exact ⟨i, r, d, h, hstop⟩
      · rw [decide_eq_true hstop] at hread
        rw [decodeLoop_more hread] at hloop
        obtain ⟨⟨d', word⟩, hpair, hrest⟩ := Option.bind_eq_some_iff.mp hloop
        exact ih (h.next hread hpair) hrest

/-- The whole loop is the loop from a point that it reaches. -/
theorem Reached.decodeLoop_eq (h : Reached big_endian infile i r d) :
    ∃ w, ∀ fuel, decodeLoop big_endian (fuel + i) ⟨read_header infile, fun _ => 0, 0, 64⟩
      decoderStart ⟨[], fun _ => 0, 0, 0⟩ = decodeLoop big_endian fuel r d w := by
  induction h with
  | start => exact ⟨_, fun _ => rfl⟩
  | @next i code sym r r' d d' word _ hread hpair ih =>
      obtain ⟨w, hw⟩ := ih
      refine ⟨write_word w word, fun fuel => ?_⟩
      rw [Nat.add_comm i 1, ← Nat.add_assoc, hw, decodeLoop_more hread, hpair]
      rfl

/-- At a stop code the program ends. -/
theorem Reached.decode_ends (h : Reached big_endian infile i r d)
    (hstop : codeAt big_endian (read_header infile) i = STOP_CODE) :
    ∃ fuel out, decode big_endian fuel infile = some out := by
  obtain ⟨w, hloop⟩ := h.decodeLoop_eq
  obtain ⟨r', sym, hread, -⟩ := h.read
  have hend : decodeLoop big_endian (0 + 1) r d w = some w :=
    decodeLoop_stop (by rw [hread, hstop]; rfl) 0 w
  refine ⟨0 + 1 + i, flush_words w, ?_⟩
  rw [decode, hloop, hend]
  rfl

/-- Codes that are defined take the loop along. -/
theorem reached_of_defined {n : ℕ} (h : ∀ i < n,
    1 ≤ codeAt big_endian (read_header infile) i ∧
      codeAt big_endian (read_header infile) i ≤ 1 + i % (capacity - 1)) :
    ∃ r d, Reached big_endian infile n r d := by
  induction n with
  | zero => exact ⟨_, _, Reached.start⟩
  | succ n ih =>
      obtain ⟨r, d, hreached⟩ := ih fun i hi => h i (Nat.lt_succ_of_lt hi)
      obtain ⟨words, hrunning⟩ := hreached.running
      obtain ⟨r', sym, hread, hplaced, htotal⟩ := hrunning.read big_endian
      obtain ⟨hpos, hle⟩ := h n (Nat.lt_succ_self n)
      obtain ⟨d', word, -, hpair, -⟩ := hrunning.step hpos hle sym hplaced htotal
      have hmore : codeAt big_endian (read_header infile) n ≠ STOP_CODE := Nat.ne_of_gt hpos
      rw [decide_eq_true hmore] at hread
      exact ⟨r', d', hreached.next hread hpair⟩

/-- A file is decoded safely exactly if some place has the stop code, and the pairs before
it lie inside the file and have codes of words known by then. -/
theorem decodes_safely_iff (big_endian : Bool) (infile : List UInt8) :
    DecodesSafely big_endian infile ↔
      ∃ n, codeAt big_endian (read_header infile) n = STOP_CODE ∧ ∀ i < n,
        1 ≤ codeAt big_endian (read_header infile) i ∧
          codeAt big_endian (read_header infile) i ≤ 1 + i % (capacity - 1) ∧
          place (i + 1) ≤ 8 * (read_header infile).length := by
  constructor
  · intro h
    obtain ⟨fuel, out, hdecode⟩ := h.stops
    obtain ⟨w, hloop, -⟩ := Option.map_eq_some_iff.mp hdecode
    obtain ⟨n, r, d, hreached, hstop⟩ := Reached.start.stops hloop
    refine ⟨n, hstop, fun i hi => ?_⟩
    obtain ⟨⟨r, d, hbefore⟩, hmore⟩ := hreached.earlier i hi
    obtain ⟨r', sym, hread, htotal⟩ := hbefore.read
    rw [decide_eq_true hmore] at hread
    have hdefined := (hbefore.defined_iff _).mp (h.table i r d r' _ sym hbefore hread)
    have hinside := h.input i r d r' _ sym hbefore hread
    exact ⟨hdefined.1, hdefined.2, by omega⟩
  · rintro ⟨n, hstop, hbefore⟩
    -- a pair that is decoded lies before the stop code
    have hlt : ∀ {i r d}, Reached big_endian infile i r d →
        codeAt big_endian (read_header infile) i ≠ STOP_CODE → i < n := by
      intro i r d hreached hmore
      rcases Nat.lt_trichotomy i n with hlt | rfl | hgt
      · exact hlt
      · exact absurd hstop hmore
      · exact absurd hstop (hreached.earlier n hgt).2
    obtain ⟨r, d, hreached⟩ := reached_of_defined fun i hi =>
      ⟨(hbefore i hi).1, (hbefore i hi).2.1⟩
    refine ⟨?_, ?_, hreached.decode_ends hstop⟩
    · intro i r d r' code sym hreached hread
      obtain ⟨rfl, hmore, -⟩ := hreached.read_true hread
      obtain ⟨hpos, hle, -⟩ := hbefore i (hlt hreached hmore)
      exact (hreached.defined_iff _).mpr ⟨hpos, hle⟩
    · intro i r d r' code sym hreached hread
      obtain ⟨-, hmore, htotal⟩ := hreached.read_true hread
      have hinside := (hbefore i (hlt hreached hmore)).2.2
      omega

/-- After the header a code 2, which has no word yet. -/
theorem undefined_code_decoded : ¬DecodesSafely false [0, 0, 0, 0, 0, 0, 0, 0, 2, 0] := by
  intro h
  have hcode : codeAt false (read_header [0, 0, 0, 0, 0, 0, 0, 0, 2, 0]) 0 = 2 := by
    rw [read_header, read_bytes_eq _ _ (by decide)]
    decide
  have hstart : Reached false [0, 0, 0, 0, 0, 0, 0, 0, 2, 0] 0 _ _ := Reached.start
  obtain ⟨r', sym, hread, -⟩ := hstart.read
  rw [hcode] at hread
  exact (h.table 0 _ _ r' 2 sym hstart hread).2 rfl

end FavoriteAssignments.Lz78
