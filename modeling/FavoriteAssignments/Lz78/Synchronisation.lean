import FavoriteAssignments.Lz78.Loops

/-! # Widths on both sides

`encode` and `decode` count the pairs with their own `next_code`, in their loops by the same
rule. After the loop `encode` counts the pair of an unfinished word by another. -/

namespace FavoriteAssignments.Lz78

open PhraseDictionary Bits

/-! ## The `next_code` of `decode` -/

/-- `next_code` before the pair in place `i` is read. -/
def decoderNextCode (i : ℕ) : ℕ := (Decoder.advance^[i] decoderStart).next_code

theorem advance_next_code (d : Decoder) :
    d.advance.next_code = if (d.next_code + 1) % 2 ^ 16 = MAX_CODE then START_CODE
      else (d.next_code + 1) % 2 ^ 16 := by
  unfold Decoder.advance
  dsimp only
  split <;> rfl

/-- Reading any pair counts it in this way. -/
theorem decodePair_next_code {d d' : Decoder} {i curr_code : ℕ} {curr_sym : UInt8} {word : Word}
    (hnext : d.next_code = decoderNextCode i)
    (h : decodePair d curr_code curr_sym = some (d', word)) :
    d'.next_code = decoderNextCode (i + 1) := by
  unfold decodePair at h
  split at h
  · obtain ⟨w, -, heq⟩ := Option.map_eq_some_iff.mp h
    rw [decoderNextCode] at hnext
    rw [← (Prod.mk.inj heq).1, decoderNextCode, Function.iterate_succ_apply', advance_next_code,
      advance_next_code, hnext]
  · cases h

/-- The decoder starts again where the dictionary does. -/
theorem next_code_nextLength (k : ℕ) :
    (if k + 2 = MAX_CODE then START_CODE else k + 2) = nextLength capacity k + 1 := by
  have hfull : k + 2 = MAX_CODE ↔ k + 1 = capacity := by
    simp only [capacity, MAX_CODE, EMPTY_CODE]
    omega
  unfold nextLength
  by_cases h : k + 1 = capacity
  · rw [if_pos (hfull.mpr h), if_pos h]
    rfl
  · rw [if_neg fun hmax => h (hfull.mp hmax), if_neg h]

theorem decoderNextCode_eq (i : ℕ) :
    decoderNextCode i = START_CODE + i % (capacity - 1) := by
  induction i with
  | zero => rfl
  | succ i ih =>
      have hlt := next_code_lt i
      have hnext : decoderNextCode i + 1 = 1 + i % (capacity - 1) + 2 := by
        rw [ih, START_CODE]
        omega
      have hmod : (decoderNextCode i + 1) % 2 ^ 16 = 1 + i % (capacity - 1) + 2 := by
        rw [Nat.mod_eq_of_lt (by rw [ih]; exact Nat.lt_of_le_of_lt hlt (by decide)), hnext]
      rw [decoderNextCode, Function.iterate_succ_apply', advance_next_code,
        show (Decoder.advance^[i] decoderStart).next_code = decoderNextCode i from rfl, hmod,
        next_code_nextLength, nextLength_place, START_CODE]
      omega

/-! ## Both -/

/-- `encode` writes every pair, the stop pair too, with the width with which `decode` reads
the pair in its place. -/
def Synchronised (infile : List UInt8) : Prop :=
  ∃ fuel pairs, encodedPairs fuel infile = some pairs ∧
    ∀ i pair, pairs[i]? = some pair → pair.bitlen = bitlen (decoderNextCode i)

theorem pairsFrom_width {i j : ℕ} {ps : List (ℕ × UInt8)} {pair : Pair}
    (h : (pairsFrom (1 + i % (capacity - 1)) ps)[j]? = some pair) : pair.bitlen = width (i + j) := by
  induction ps generalizing i j with
  | nil => cases h
  | cons phrase ps ih =>
      rw [pairsFrom_cons] at h
      cases j with
      | zero =>
          obtain rfl := Option.some.inj h
          rfl
      | succ j =>
          rw [List.getElem?_cons_succ] at h
          rw [ih h, Nat.add_right_comm, Nat.add_assoc]

theorem length_pairsFrom (k : ℕ) (ps : List (ℕ × UInt8)) : (pairsFrom k ps).length = ps.length := by
  induction ps generalizing k with
  | nil => rfl
  | cons phrase ps ih => rw [pairsFrom, List.length_cons, ih, List.length_cons]

theorem bitlen_decoderNextCode (i : ℕ) : bitlen (decoderNextCode i) = width i := by
  rw [decoderNextCode_eq, width]

theorem EndsFull.not_synchronised {infile : List UInt8} (h : EndsFull (delivered infile)) :
    ¬Synchronised infile := by
  obtain ⟨last, hfull, -, -, hunique⟩ := encodedPairs_eq infile
  rintro ⟨fuel, pairs, hrun, hsame⟩
  obtain rfl := hunique fuel pairs hrun
  have hstop := hsame (phrases capacity (delivered infile)).length _
    (by rw [← length_pairsFrom 1]; exact List.getElem?_concat_length)
  rw [bitlen_decoderNextCode, hfull h, width, h.2] at hstop
  cases hstop

/-- The widths agree unless the text ends inside a word whose pair fills the dictionary. -/
theorem synchronised_iff (infile : List UInt8) :
    Synchronised infile ↔ ¬EndsFull (delivered infile) := by
  refine ⟨fun h hfull => hfull.not_synchronised h, fun hends => ?_⟩
  obtain ⟨last, -, hopen, ⟨fuel, hpairs⟩, -⟩ := encodedPairs_eq infile
  have hlength := length_pairsFrom 1 (phrases capacity (delivered infile))
  refine ⟨fuel, _, hpairs, fun i pair hpair => ?_⟩
  rw [bitlen_decoderNextCode]
  rcases Nat.lt_or_ge i (phrases capacity (delivered infile)).length with hlt | hge
  · rw [List.getElem?_append_left (by rwa [hlength])] at hpair
    rw [← Nat.zero_add i]
    exact pairsFrom_width (i := 0) hpair
  · rw [List.getElem?_append_right (by rwa [hlength]), List.getElem?_singleton] at hpair
    split at hpair
    · obtain rfl : i = (phrases capacity (delivered infile)).length := by omega
      obtain rfl := Option.some.inj hpair
      rw [hopen hends, width]
    · cases hpair

/-! ## A text that ends full -/

/-- The `k`-th word of two bytes. -/
def twoBytes (k : ℕ) : List UInt8 × UInt8 := ([UInt8.ofNat (k / 256)], UInt8.ofNat (k % 256))

/-- `n` single bytes, `m` words of two bytes, and a byte that is a word by then. -/
def filling (n m : ℕ) : List UInt8 :=
  (List.range n).map UInt8.ofNat ++
    ((List.range m).map twoBytes).flatMap (fun w => w.1 ++ [w.2]) ++ [0]

theorem length_filling (n m : ℕ) : (filling n m).length = n + m * 2 + 1 := by
  have htwo : (fun w : List UInt8 × UInt8 => w.1.length + 1) ∘ twoBytes = fun _ => 2 := rfl
  simp [filling, List.length_flatMap, htwo, Nat.add_assoc]

theorem nodup_twoBytes {m : ℕ} (hm : m ≤ 256 * 256) :
    (((List.range m).map twoBytes).map fun w => w.1 ++ [w.2]).Nodup := by
  rw [List.map_map]
  refine List.Nodup.map_on ?_ List.nodup_range
  intro a ha b hb heq
  have halt := List.mem_range.mp ha
  have hblt := List.mem_range.mp hb
  obtain ⟨hhigh, hlow⟩ : UInt8.ofNat (a / 256) = UInt8.ofNat (b / 256) ∧
      UInt8.ofNat (a % 256) = UInt8.ofNat (b % 256) := by
    simpa [twoBytes] using heq
  have hdiv := ofNat_inj (by omega) (by omega) hhigh
  have hmod := ofNat_inj (by omega) (by omega) hlow
  omega

/-- Every word is a phrase of its own, and the last byte is left over. -/
theorem feed_filling {n m : ℕ} (hpos : 0 < n) (hn : n ≤ 256) (hm : m ≤ 256 * n)
    (hroom : n + m + 1 < capacity) :
    (Parser.start.feed capacity (filling n m)).1.current = [0] ∧
      (Parser.start.feed capacity (filling n m)).2.length = n + m := by
  have hbytes : ((List.range n).map UInt8.ofNat).length = n := by simp
  obtain ⟨hfirst, hcurrent, hwords⟩ := feed_distinct (nodup_bytes hn)
    (show _ < capacity by omega)
  rw [List.map_map] at hwords
  rw [filling, feed_append, feed_append, hfirst]
  generalize (Parser.start.feed capacity ((List.range n).map UInt8.ofNat)).1 = p
    at hcurrent hwords ⊢
  have hmem : ∀ a < n, [UInt8.ofNat a] ∈ p.dict.words := by
    intro a ha
    rw [hwords]
    exact List.mem_cons_of_mem _ (List.mem_map.mpr ⟨a, List.mem_range.mpr ha, rfl⟩)
  have hknown : ∀ w ∈ (List.range m).map twoBytes, w.1 ∈ p.dict.words := by
    intro w hw
    obtain ⟨k, hk, rfl⟩ := List.mem_map.mp hw
    have hlt := List.mem_range.mp hk
    exact hmem (k / 256) (by omega)
  have hnew : ∀ w ∈ (List.range m).map twoBytes, w.1 ++ [w.2] ∉ p.dict.words := by
    intro w hw
    obtain ⟨k, -, rfl⟩ := List.mem_map.mp hw
    simp [hwords, twoBytes]
  obtain ⟨hphrases, hcurrent', hwords'⟩ := feed_words hcurrent hknown hnew
    (nodup_twoBytes (by omega))
    (show _ < capacity by simp only [hwords, List.length_cons, List.length_map,
      List.length_range]; omega)
  rw [hphrases]
  generalize (p.feed capacity _).1 = q at hcurrent' hwords' ⊢
  have hlast : q.current ++ [0] ∈ q.dict.words := by
    rw [hcurrent', hwords']
    exact List.mem_append_left _ (hmem 0 hpos)
  obtain ⟨-, hpending, hnone⟩ := feed_known capacity hlast
  rw [hpending, hnone, hcurrent']
  simp

theorem endsFull_filling : EndsFull (filling 256 65276) := by
  obtain ⟨hcurrent, hlength⟩ := feed_filling (n := 256) (m := 65276) (by decide) (by decide)
    (by decide) (by decide)
  have hne : (Parser.start.feed capacity (filling 256 65276)).1.current ≠ [] := by
    simp [hcurrent]
  refine ⟨hne, ?_⟩
  rw [phrases, List.length_append, pending_length, if_neg hne, hlength]
  rfl

/-- The pair of the byte left over fills the dictionary, and the stop pair has no width. -/
theorem stop_width_lost : ¬Synchronised (filling 256 65276) := by
  have hdelivered : delivered (filling 256 65276) = filling 256 65276 := by
    rw [delivered_eq_iff, length_filling]
    decide
  refine EndsFull.not_synchronised ?_
  rw [hdelivered]
  exact endsFull_filling

end FavoriteAssignments.Lz78
