import FavoriteAssignments.Lz78.Loops

/-! # The round trip

What `decode` makes of the file of `encode` is what reading the phrases of the text back
gives when every code has become the one that is seen in its width. -/

namespace FavoriteAssignments.Lz78

open PhraseDictionary Bits

/-! ## Reading phrases back through the file -/

/-- The text of phrases read back from place `i` on; a code seen as the stop code ends
it. -/
def reread (big_endian : Bool) : ℕ → List Word → List (ℕ × UInt8) → Option (List UInt8)
  | _, _, [] => some []
  | i, words, phrase :: ps =>
      match seen big_endian (width i) (phrase.1 + 1) with
      | 0 => some []
      | a + 1 =>
          (unstep capacity words (a, phrase.2)).bind fun next =>
            (reread big_endian (i + 1) next.1 ps).map (next.2 ++ ·)

theorem Decoding.reread (big_endian : Bool) {i n : ℕ} {words : List Word} {out : List UInt8}
    {ps : List (ℕ × UInt8)} {r : BitReader} {d : Decoder} {w : SymWriter}
    (h : Decoding i words out
      (pairsBits (pairsFrom (1 + i % (capacity - 1)) ps) ++ List.replicate n false) r d w)
    (hn : width (i + ps.length) ≤ n) :
    (∀ text, reread big_endian i words ps = some text →
      ∃ fuel w', decodeLoop big_endian fuel r d w = some w' ∧ Emitted w' (out ++ text)) ∧
    (reread big_endian i words ps = none → ∀ fuel, decodeLoop big_endian fuel r d w = none) := by
  induction ps generalizing i words out r d w with
  | nil =>
      refine ⟨?_, fun hnone => by cases hnone⟩
      intro text htext
      obtain rfl : [] = text := Option.some.inj htext
      have hzeros : Decoding i words out (List.replicate n false) r d w := h
      refine ⟨1, w, hzeros.stop hn 0, ?_⟩
      rw [List.append_nil]
      exact h.emitted
  | cons phrase ps ih =>
      rw [pairsFrom_cons, pairsBits_cons, List.append_assoc] at h
      rw [Lz78.reread]
      cases hcode : seen big_endian (width i) (phrase.1 + 1) with
      | zero =>
          refine ⟨?_, fun hnone => by cases hnone⟩
          intro text htext
          obtain rfl : [] = text := Option.some.inj htext
          refine ⟨1, w, h.early_stop hcode 0, ?_⟩
          rw [List.append_nil]
          exact h.emitted
      | succ a =>
          dsimp only
          cases hstep : unstep capacity words (a, phrase.2) with
          | none =>
              constructor
              · intro text htext
                cases htext
              · intro _ fuel
                cases fuel with
                | zero => rfl
                | succ fuel => exact h.no_word hcode (by simpa [unstep] using hstep) fuel
          | some next =>
              obtain ⟨r', d', w', hnext, hloop⟩ := h.step hcode hstep
              obtain ⟨hsome, hnone⟩ := ih hnext (by rwa [Nat.add_right_comm])
              rw [Option.bind_some]
              constructor
              · intro text htext
                obtain ⟨rest, hrest, rfl⟩ := Option.map_eq_some_iff.mp htext
                obtain ⟨fuel, last, hrun, hlast⟩ := hsome rest hrest
                refine ⟨fuel + 1, last, (hloop fuel).trans hrun, ?_⟩
                rwa [← List.append_assoc]
              · intro hlost fuel
                cases fuel with
                | zero => rfl
                | succ fuel =>
                    rw [hloop]
                    exact hnone (Option.map_eq_none_iff.mp hlost) fuel

/-- Whether `decode` recovers the text is decided by its phrases. -/
theorem roundTrips_iff_reread (big_endian : Bool) (mode : ℕ) (syms : List UInt8) :
    RoundTrips big_endian mode syms ↔
      reread big_endian 0 [[]] (phrases capacity (delivered syms)) = some syms := by
  obtain ⟨body, n, ⟨fuel, hencode⟩, hbits, hroom⟩ := encode_file big_endian mode syms
  have hdecode : ∀ fuel text, decode big_endian fuel
      (write_header big_endian [] ⟨MAGIC, mode % 2 ^ 16⟩ ++ body) = some text ↔
        ∃ w, decodeLoop big_endian fuel ⟨body, fun _ => 0, 0, 64⟩ decoderStart
          ⟨[], fun _ => 0, 0, 0⟩ = some w ∧ flush_words w = text := by
    intro fuel text
    rw [decode, read_header_write_header, Option.map_eq_some_iff]
  obtain ⟨hsome, hnone⟩ := (Decoding.start body _ hbits).reread big_endian
    (by rwa [Nat.zero_add])
  constructor
  · rintro ⟨file, ⟨fuel', hencode'⟩, fuel'', hfile⟩
    obtain rfl := encode_unique hencode hencode'
    cases hread : reread big_endian 0 [[]] (phrases capacity (delivered syms)) with
    | none =>
        obtain ⟨w, hloop, -⟩ := (hdecode fuel'' syms).mp hfile
        rw [hnone hread] at hloop
        cases hloop
    | some text =>
        obtain ⟨last, w, hloop, hlast⟩ := hsome text hread
        exact congrArg some
          (decode_unique ((hdecode last text).mpr ⟨w, hloop, hlast.flush_words⟩) hfile)
  · intro hread
    obtain ⟨last, w, hloop, hlast⟩ := hsome syms hread
    exact ⟨_, ⟨fuel, hencode⟩, last, (hdecode last syms).mpr ⟨w, hloop, hlast.flush_words⟩⟩

/-! ## Codes that survive -/

/-- From place `i` on, every phrase is read as it was written. -/
def SurvivesFrom (i : ℕ) (ps : List (ℕ × UInt8)) : Prop :=
  ∀ j phrase, ps[j]? = some phrase → Survives (width (i + j)) (phrase.1 + 1)

theorem SurvivesFrom.tail {i : ℕ} {phrase : ℕ × UInt8} {ps : List (ℕ × UInt8)}
    (h : SurvivesFrom i (phrase :: ps)) : SurvivesFrom (i + 1) ps := by
  intro j later hj
  rw [Nat.add_right_comm, Nat.add_assoc]
  exact h (j + 1) later hj

theorem seen_of_survives {i code : ℕ} (hcode : code ≤ START_CODE + i % (capacity - 1))
    (h : Survives (width i) code) : seen false (width i) code = code :=
  (spread_eq_iff (width_le i) (lt_two_pow_width hcode)).mpr h

/-- Phrases that survive are read back as they are. -/
theorem reread_append {i : ℕ} {words words' : List Word} {front : List (ℕ × UInt8)}
    {done : List UInt8} (hlength : words.length = 1 + i % (capacity - 1))
    (hsurvives : SurvivesFrom i front)
    (hfront : unparse capacity words front = some (words', done)) (rest : List (ℕ × UInt8)) :
    reread false i words (front ++ rest) =
      (reread false (i + front.length) words' rest).map (done ++ ·) := by
  induction front generalizing i words done with
  | nil =>
      obtain ⟨rfl, rfl⟩ := unparse_nil_eq_some.mp hfront
      simp
  | cons phrase front ih =>
      obtain ⟨u, later, hword, hlater, rfl⟩ := unparse_cons_eq_some.mp hfront
      have hcode : seen false (width i) (phrase.1 + 1) = phrase.1 + 1 := by
        have hplace := (List.getElem?_eq_some_iff.mp hword).1
        exact seen_of_survives (by rw [START_CODE]; omega) (hsurvives 0 phrase rfl)
      have hnext : (learn capacity words (u ++ [phrase.2])).length =
          1 + (i + 1) % (capacity - 1) := by
        rw [learn_length, hlength, nextLength_place]
      rw [List.cons_append, reread, hcode]
      simp only [unstep_eq hword, Option.bind_some]
      rw [ih hnext hsurvives.tail hlater, List.length_cons, Nat.add_right_comm i 1,
        ← Nat.add_assoc, Option.map_map]
      congr 1
      funext text
      simp

/-- Every code of the text survives its width. -/
def Intact (text : List UInt8) : Prop := SurvivesFrom 0 (phrases capacity text)

theorem reread_of_intact {text : List UInt8} (h : Intact text) :
    reread false 0 [[]] (phrases capacity text) = some text := by
  have := reread_append rfl h (unparse_phrases capacity text) []
  rw [List.append_nil] at this
  rw [this]
  simp [reread]

/-- Texts of at most 254 phrases have no code of more than eight bits. -/
theorem survivesFrom_of_short {ps : List (ℕ × UInt8)} (h : ps.length ≤ 254) :
    SurvivesFrom 0 ps := by
  intro j phrase hj
  have hlt := (List.getElem?_eq_some_iff.mp hj).1
  have hplace : (0 + j) % (capacity - 1) = j := by
    rw [Nat.zero_add]
    exact Nat.mod_eq_of_lt (Nat.lt_of_lt_of_le hlt (Nat.le_trans h (by decide)))
  refine Or.inl ?_
  rw [width, hplace, bitlen_le_iff (by rw [START_CODE]; omega)]
  rw [START_CODE]
  omega

/-! ## Codes that do not -/

/-- The text of some phrases, the last of which has another code than it was written
with: one that is not in use, the stop code, or that of a word with which the text does
not go on. -/
def Garbled (text : List UInt8) : Prop :=
  ∃ front phrase rest words done, phrases capacity text = front ++ phrase :: rest ∧
    SurvivesFrom 0 front ∧ unparse capacity [[]] front = some (words, done) ∧
    ∀ a word, seen false (width front.length) (phrase.1 + 1) = a + 1 → words[a]? = some word →
      ¬ done ++ (word ++ [phrase.2]) <+: text

theorem reread_of_garbled {text : List UInt8} (h : Garbled text) :
    reread false 0 [[]] (phrases capacity text) ≠ some text := by
  obtain ⟨front, phrase, rest, words, done, hphrases, hsurvives, hfront, hwrong⟩ := h
  have hall := unparse_phrases capacity text
  rw [hphrases, unparse_append hfront] at hall
  obtain ⟨later, hlater, htext⟩ := Option.map_eq_some_iff.mp hall
  have hdone : done ≠ text := by
    intro heq
    have hnil : done ++ later.2 = done := (Prod.mk.inj htext).2.trans heq.symm
    obtain ⟨u, more, -, -, hlast⟩ := unparse_cons_eq_some.mp hlater
    rw [List.append_right_eq_self.mp hnil] at hlast
    simp at hlast
  rw [hphrases, reread_append rfl hsurvives hfront, Nat.zero_add, reread]
  cases hcode : seen false (width front.length) (phrase.1 + 1) with
  | zero => simpa using hdone
  | succ a =>
      cases hword : words[a]? with
      | none => simp [unstep, hword]
      | some word =>
          intro hread
          simp only [unstep, hword, Option.map_some, Option.bind_some, Option.map_map,
            Option.map_eq_some_iff, Function.comp_apply] at hread
          obtain ⟨more, -, htext⟩ := hread
          exact hwrong a word hcode hword ⟨more, by rw [← htext]; simp⟩

/-- The codes of 254 words that are one symbol each survive; the next does not. -/
theorem garbled_of_distinct {text : List UInt8} (hnodup : text.Nodup)
    (hlength : text.length = 255) : Garbled text := by
  obtain ⟨front, sym, rfl⟩ : ∃ front sym, text = front ++ [sym] :=
    ⟨_, _, (List.dropLast_append_getLast (List.ne_nil_of_length_pos (by omega))).symm⟩
  have hfront : front.length = 254 := by simpa using hlength
  have hphrases := phrases_distinct capacity hnodup (by rw [hlength]; decide)
  have hwords := unparse_phrases capacity front
  rw [phrases_distinct capacity (List.nodup_append.mp hnodup).1 (by rw [hfront]; decide)] at hwords
  have hlast := unparse_length hwords
  rw [List.length_map, hfront, List.length_singleton, nextLength_iterate (by decide)] at hlast
  refine ⟨_, (0, sym), [], _, front, by rw [hphrases, List.map_append]; rfl,
    survivesFrom_of_short (by simp [hfront]), hwords, ?_⟩
  intro a word hcode hword
  have hseen : seen false (width 254) (0 + 1) = 256 + 1 := by decide
  rw [List.length_map, hfront, hseen] at hcode
  have hlt := (List.getElem?_eq_some_iff.mp hword).1
  have hplace : 254 % (capacity - 1) = 254 := by decide
  rw [hlast, hplace] at hlt
  omega

/-! ## Big-endian machines -/

/-- The first code is seen with its bytes swapped. -/
theorem reread_big_endian (s : UInt8) (text : List UInt8) :
    reread true 0 [[]] (phrases capacity (s :: text)) = none := by
  obtain ⟨rest, hrest⟩ := phrases_cons capacity s text
  have hcode : seen true (width 0) (0 + 1) = 255 + 1 := by decide
  simp only [hrest, reread, hcode]
  rfl

/-! ## The whole files -/

theorem delivered_eq_nil {syms : List UInt8} (h : delivered syms = []) : syms = [] := by
  unfold delivered deliveredFrom at h
  split at h
  · simp at h
  · exact h

/-- What decides the round trip. On a big-endian machine only the empty file survives; on
the others a file whose codes all survive does unless its last block is one byte short of
full, and a file that is garbled does not. -/
theorem round_trips_iff (mode : ℕ) (syms : List UInt8) :
    (∀ big_endian, RoundTrips big_endian mode syms ↔
      reread big_endian 0 [[]] (phrases capacity (delivered syms)) = some syms) ∧
    (RoundTrips true mode syms ↔ syms = []) ∧
    (Intact (delivered syms) →
      (RoundTrips false mode syms ↔ syms.length % BLOCK ≠ BLOCK - 1)) ∧
    (Garbled syms → syms.length % BLOCK ≠ BLOCK - 1 → ¬ RoundTrips false mode syms) := by
  refine ⟨fun big_endian => roundTrips_iff_reread big_endian mode syms, ?_, ?_, ?_⟩
  · rw [roundTrips_iff_reread]
    constructor
    · intro hread
      cases hsyms : delivered syms with
      | nil => exact delivered_eq_nil hsyms
      | cons s text =>
          rw [hsyms, reread_big_endian] at hread
          cases hread
    · intro hsyms
      rw [hsyms]
      rfl
  · intro hintact
    rw [roundTrips_iff_reread, reread_of_intact hintact, Option.some.injEq, delivered_eq_iff]
  · intro hgarbled hblock
    rw [roundTrips_iff_reread, (delivered_eq_iff syms).mpr hblock]
    exact reread_of_garbled hgarbled

theorem round_trips_iff_one_byte : RoundTrips false 420 [97] ∧ RoundTrips true 420 [] ∧
    ¬ RoundTrips false 420 ((List.range 255).map UInt8.ofNat) := by
  refine ⟨?_, ?_, ?_⟩
  · exact ((round_trips_iff 420 [97]).2.2.1 (survivesFrom_of_short (by decide))).mpr (by decide)
  · exact (round_trips_iff 420 []).2.1.mpr rfl
  · exact (round_trips_iff 420 ((List.range 255).map UInt8.ofNat)).2.2.2
      (garbled_of_distinct (nodup_bytes (by decide)) (by simp)) (by simp [BLOCK])

/-- The 255 bytes from 0 on do not come back. -/
theorem distinct_bytes_lost : ¬ ∀ syms, RoundTrips false 420 syms := by
  intro h
  have hread := (roundTrips_iff_reread false 420 _).mp (h ((List.range 255).map UInt8.ofNat))
  rw [(delivered_eq_iff _).mpr (by simp [BLOCK])] at hread
  exact reread_of_garbled (garbled_of_distinct (nodup_bytes (by decide)) (by simp)) hread

end FavoriteAssignments.Lz78
