import FavoriteAssignments.Library.PhraseDictionary
import FavoriteAssignments.Lz78.Coder
import Mathlib.Data.List.Induction

/-! # Trie and word table

The trie of the encoder and the word table of the decoder both hold the words of one
phrase dictionary: a word in place `i` has code `i + 1`. -/

namespace FavoriteAssignments.Lz78

open PhraseDictionary

/-- The number of words at which both sides start again. -/
abbrev capacity : ℕ := MAX_CODE - EMPTY_CODE

/-! ## The trie -/

/-- The node reached from `n` along a word. -/
def walk (heap : Heap) (n : ℕ) (w : Word) : Option ℕ := w.foldlM (trie_step heap) n

theorem walk_append (heap : Heap) (n : ℕ) (w : Word) (s : UInt8) :
    walk heap n (w ++ [s]) = (walk heap n w).bind fun m => trie_step heap m s := by
  simp [walk]

/-- The heap after a word is completed at `n`. -/
def Heap.grow (heap : Heap) (n : ℕ) (sym : UInt8) (code : ℕ) : Heap :=
  (trie_node_create heap code).1.setChild n sym (trie_node_create heap code).2

variable {heap : Heap} {n m : ℕ} {sym s : UInt8} {code : ℕ} {w : Word}

theorem grow_code (hn : n < heap.fresh) (hm : m < heap.fresh) :
    ((heap.grow n sym code).node m).code = (heap.node m).code := by
  have hn' : n ≠ heap.fresh := by omega
  have hm' : m ≠ heap.fresh := by omega
  by_cases hmn : m = n
  · subst hmn
    simp [Heap.grow, Heap.setChild, trie_node_create, hm']
  · simp [Heap.grow, Heap.setChild, trie_node_create, hmn, hm']

theorem grow_code_fresh (hn : n < heap.fresh) :
    ((heap.grow n sym code).node heap.fresh).code = code % 2 ^ 16 := by
  have hn' : heap.fresh ≠ n := by omega
  simp [Heap.grow, Heap.setChild, trie_node_create, hn']

theorem grow_children (hn : n < heap.fresh) (hm : m < heap.fresh) :
    ((heap.grow n sym code).node m).children s =
      if m = n ∧ s = sym then some heap.fresh else (heap.node m).children s := by
  have hn' : n ≠ heap.fresh := by omega
  have hm' : m ≠ heap.fresh := by omega
  by_cases hmn : m = n
  · subst hmn
    simp [Heap.grow, Heap.setChild, trie_node_create, hm', Function.update_apply]
  · simp [Heap.grow, Heap.setChild, trie_node_create, hmn, hm']

theorem grow_children_fresh (hn : n < heap.fresh) :
    ((heap.grow n sym code).node heap.fresh).children s = none := by
  have hn' : heap.fresh ≠ n := by omega
  simp [Heap.grow, Heap.setChild, trie_node_create, hn']

theorem grow_fresh : (heap.grow n sym code).fresh = heap.fresh + 1 := rfl

/-- A list of words with the nodes that stand for them is what the heap holds. -/
structure Holds (heap : Heap) (nodes : List (Word × ℕ)) : Prop where
  words : (nodes.map Prod.fst).Nodup
  pointers : (nodes.map Prod.snd).Nodup
  allocated : ∀ node ∈ nodes, node.2 < heap.fresh
  code : ∀ i w n, nodes[i]? = some (w, n) → (heap.node n).code = i + 1
  children : ∀ w n s m, (w, n) ∈ nodes →
    ((heap.node n).children s = some m ↔ (w ++ [s], m) ∈ nodes)

namespace Holds

variable {nodes : List (Word × ℕ)}

theorem pointer_unique (h : Holds heap nodes) (hn : (w, n) ∈ nodes) (hm : (w, m) ∈ nodes) :
    n = m := by
  simpa using List.inj_on_of_nodup_map h.words hn hm rfl

theorem word_unique (h : Holds heap nodes) {v : Word} (hw : (w, n) ∈ nodes)
    (hv : (v, n) ∈ nodes) : w = v := by
  simpa using List.inj_on_of_nodup_map h.pointers hw hv rfl

/-- A new word takes the next code. -/
theorem grow (h : Holds heap nodes) (hn : (w, n) ∈ nodes)
    (hnew : w ++ [sym] ∉ nodes.map Prod.fst)
    (hclosed : ∀ v a, v ++ [a] ∈ nodes.map Prod.fst → v ∈ nodes.map Prod.fst)
    (hcode : code = nodes.length + 1) (hroom : nodes.length + 1 < 2 ^ 16) :
    Holds (heap.grow n sym code) (nodes ++ [(w ++ [sym], heap.fresh)]) := by
  have hnlt := h.allocated _ hn
  have hnotin : ∀ v m, (v, m) ∈ nodes → v ≠ w ++ [sym] := by
    rintro v m hv rfl
    exact hnew (List.mem_map_of_mem hv)
  refine ⟨?_, ?_, ?_, ?_, ?_⟩
  · simpa [List.nodup_append, h.words] using fun v m hv => hnotin v m hv
  · have hfresh : ∀ v m, (v, m) ∈ nodes → m ≠ heap.fresh := by
      intro v m hv
      exact Nat.ne_of_lt (h.allocated _ hv)
    simpa [List.nodup_append, h.pointers] using fun m v hv => hfresh v m hv
  · intro node hnode
    rw [grow_fresh]
    rcases List.mem_append.mp hnode with hold | hlast
    · have := h.allocated node hold
      omega
    · simp [List.mem_singleton.mp hlast]
  · intro i v m hget
    rcases Nat.lt_or_ge i nodes.length with hi | hi
    · rw [List.getElem?_append_left hi] at hget
      rw [grow_code hnlt (h.allocated _ (List.mem_of_getElem? hget))]
      exact h.code i v m hget
    · obtain ⟨rfl, hv⟩ : i = nodes.length ∧ (w ++ [sym], heap.fresh) = (v, m) := by
        have hlast := List.getElem?_append_right hi ▸ hget
        rw [List.getElem?_singleton] at hlast
        split at hlast
        · exact ⟨by omega, by simpa using hlast⟩
        · cases hlast
      obtain ⟨-, rfl⟩ := Prod.mk.inj hv
      rw [grow_code_fresh hnlt, hcode, Nat.mod_eq_of_lt hroom]
  · intro v m a q hv
    rcases List.mem_append.mp hv with hold | hlast
    · rw [grow_children hnlt (h.allocated _ hold), List.mem_append, List.mem_singleton]
      by_cases hchild : m = n ∧ a = sym
      · obtain ⟨rfl, rfl⟩ := hchild
        obtain rfl := h.word_unique hold hn
        simp only [and_self, if_true, Prod.mk.injEq, true_and, Option.some.injEq]
        constructor
        · intro hq
          exact Or.inr hq.symm
        · rintro (hin | rfl)
          · exact absurd rfl (hnotin _ q hin)
          · rfl
      · rw [if_neg hchild, h.children v m a q hold]
        constructor
        · exact Or.inl
        · rintro (hin | hlast)
          · exact hin
          · obtain ⟨hva, -⟩ := Prod.mk.inj hlast
            obtain ⟨rfl, ha⟩ := List.append_inj' hva rfl
            exact absurd ⟨h.pointer_unique hold hn, by simpa using ha⟩ hchild
    · obtain ⟨rfl, rfl⟩ := Prod.mk.inj (List.mem_singleton.mp hlast)
      rw [grow_children_fresh hnlt]
      simp only [reduceCtorEq, false_iff, List.mem_append, List.mem_singleton, not_or]
      constructor
      · intro hin
        exact hnew (hclosed _ a (List.mem_map_of_mem hin))
      · intro heq
        have := congrArg List.length (Prod.mk.inj heq).1
        simp at this

/-- After a reset the root has no children and keeps its code. -/
theorem reset (h : Holds heap nodes) {root : ℕ} (hroot : nodes[0]? = some ([], root)) :
    Holds (trie_reset heap root) [([], root)] := by
  refine ⟨by simp, by simp, ?_, ?_, ?_⟩
  · intro node hnode
    rw [List.mem_singleton.mp hnode]
    exact h.allocated _ (List.mem_of_getElem? hroot)
  · intro i w n hget
    rw [List.getElem?_singleton] at hget
    split at hget
    · next hi =>
        obtain ⟨-, rfl⟩ : [] = w ∧ root = n := by simpa using hget
        simpa [trie_reset, hi] using h.code 0 [] root hroot
    · cases hget
  · intro w n s m hmem
    obtain ⟨rfl, rfl⟩ : w = [] ∧ n = root := by simpa using hmem
    simp [trie_reset]

/-- The nodes reached from the root are those of the list, along their words. -/
theorem walk_iff (h : Holds heap nodes) {root : ℕ} (hroot : nodes[0]? = some ([], root))
    (hclosed : ∀ v a, v ++ [a] ∈ nodes.map Prod.fst → v ∈ nodes.map Prod.fst) :
    walk heap root w = some n ↔ (w, n) ∈ nodes := by
  have hnil := List.mem_of_getElem? hroot
  induction w using List.reverseRecOn generalizing n with
  | nil =>
      constructor
      · intro hwalk
        obtain rfl : root = n := by simpa [walk] using hwalk
        exact hnil
      · intro hmem
        rw [h.pointer_unique hmem hnil]
        rfl
  | append_singleton w s ih =>
      rw [walk_append, Option.bind_eq_some_iff]
      constructor
      · rintro ⟨mid, hmid, hstep⟩
        exact (h.children w mid s n (ih.mp hmid)).mp hstep
      · intro hmem
        obtain ⟨⟨v, mid⟩, hmid, rfl⟩ := List.mem_map.mp (hclosed w s (List.mem_map_of_mem hmem))
        exact ⟨mid, ih.mpr hmid, (h.children _ mid s n hmid).mpr hmem⟩

end Holds

/-! ## The encoder -/

/-- The encoder stands where the parser stands. -/
structure Tracks (e : Encoder) (p : Parser UInt8) (nodes : List (Word × ℕ)) : Prop where
  holds : Holds e.heap nodes
  words : nodes.map Prod.fst = p.dict.words
  root : nodes[0]? = some ([], e.root)
  current : (p.current, e.curr_node) ∈ nodes
  previous : ∀ w s, p.current = w ++ [s] →
    e.prev_sym = s ∧ ∃ n, e.prev_node = some n ∧ (w, n) ∈ nodes
  next_code : e.next_code = nodes.length + 1
  room : nodes.length < capacity

namespace Tracks

variable {e : Encoder} {p : Parser UInt8} {nodes : List (Word × ℕ)}

theorem closed (h : Tracks e p nodes) :
    ∀ v a, v ++ [a] ∈ nodes.map Prod.fst → v ∈ nodes.map Prod.fst := by
  rw [h.words]
  exact p.dict.closed

theorem mem_words (h : Tracks e p nodes) : w ∈ p.dict.words ↔ ∃ n, (w, n) ∈ nodes := by
  simp [← h.words]

theorem code_of_mem (h : Tracks e p nodes) (hmem : (w, n) ∈ nodes) :
    (e.heap.node n).code = p.dict.words.idxOf w + 1 := by
  obtain ⟨i, hi⟩ := List.getElem?_of_mem hmem
  have hw : p.dict.words[i]? = some w := by simp [← h.words, hi]
  obtain ⟨hlt, rfl⟩ := List.getElem?_eq_some_iff.mp hw
  rw [h.holds.code i _ n hi, p.dict.nodup.idxOf_getElem]

theorem start : Tracks encoderStart Parser.start [([], 0)] where
  holds := by
    refine ⟨by simp, by simp, ?_, ?_, ?_⟩
    · simp [encoderStart, trie_create, trie_node_create]
    · intro i w n hget
      rw [List.getElem?_singleton] at hget
      split at hget
      · next hi =>
          obtain ⟨-, rfl⟩ : [] = w ∧ 0 = n := by simpa using hget
          simp [encoderStart, trie_create, trie_node_create, EMPTY_CODE, hi]
      · cases hget
    · intro w n s m hmem
      obtain ⟨rfl, rfl⟩ : w = [] ∧ n = 0 := by simpa using hmem
      simp [encoderStart, trie_create, trie_node_create]
  words := rfl
  root := rfl
  current := by simp [Parser.start, encoderStart, trie_create, trie_node_create]
  previous := by simp [Parser.start]
  next_code := rfl
  room := by decide

/-- What a completed word leaves in the registers, before the reset. -/
structure Completed (e : Encoder) (nodes : List (Word × ℕ)) : Prop where
  holds : Holds e.heap nodes
  root : nodes[0]? = some ([], e.root)
  current : e.curr_node = e.root
  next_code : e.next_code = nodes.length
  room : nodes.length ≤ capacity

theorem advance {d : Dictionary UInt8} (h : Completed e nodes)
    (hwords : nodes.map Prod.fst = d.words) (prev_sym : UInt8) :
    ∃ nodes', Tracks { e.advance with prev_sym := prev_sym }
      ⟨d.limit capacity, [], Dictionary.nil_mem _⟩ nodes' := by
  have hlength : d.words.length = nodes.length := by rw [← hwords, List.length_map]
  by_cases hfull : nodes.length = capacity
  · refine ⟨[([], e.root)], ?_⟩
    have hnext : e.next_code + 1 = MAX_CODE := by rw [h.next_code, hfull]; rfl
    have hlimit : d.limit capacity = Dictionary.fresh := by
      simp [Dictionary.limit, hlength, hfull]
    simp only [Encoder.advance, hnext, if_true, hlimit]
    refine ⟨h.holds.reset h.root, rfl, rfl, ?_, ?_, rfl, ?_⟩
    · simp
    · simp
    · simp [capacity, MAX_CODE, EMPTY_CODE]
  · refine ⟨nodes, ?_⟩
    have hnext : e.next_code + 1 ≠ MAX_CODE := by
      rw [h.next_code]
      simp only [capacity, MAX_CODE, EMPTY_CODE] at hfull ⊢
      omega
    have hlimit : d.limit capacity = d := by simp [Dictionary.limit, hlength, hfull]
    simp only [Encoder.advance, hnext, if_false, hlimit]
    refine ⟨h.holds, hwords, h.root, ?_, ?_, ?_, ?_⟩
    · rw [h.current]
      exact List.mem_of_getElem? h.root
    · simp
    · rw [h.next_code]
    · exact Nat.lt_of_le_of_ne h.room hfull

end Tracks

/-- The pairs for a list of phrases, written from `k` words on: the code of a phrase is
one above the place of its word, its width is that of the next code. -/
def pairsFrom : ℕ → List (ℕ × UInt8) → List Pair
  | _, [] => []
  | k, phrase :: phrases =>
      ⟨phrase.1 + 1, phrase.2, bitlen (k + 1)⟩ :: pairsFrom (nextLength capacity k) phrases

theorem pairsFrom_append (k : ℕ) (ps q : List (ℕ × UInt8)) :
    pairsFrom k (ps ++ q) =
      pairsFrom k ps ++ pairsFrom ((nextLength capacity)^[ps.length] k) q := by
  induction ps generalizing k with
  | nil => rfl
  | cons phrase ps ih => simp [pairsFrom, ih]

namespace Tracks

variable {e : Encoder} {p : Parser UInt8} {nodes : List (Word × ℕ)}

theorem words_length (h : Tracks e p nodes) : p.dict.words.length = nodes.length := by
  rw [← h.words, List.length_map]

theorem step (h : Tracks e p nodes) (s : UInt8) :
    (∃ nodes', Tracks (encodeSym e s).1 (p.step capacity s).1 nodes') ∧
      (encodeSym e s).2 = pairsFrom p.dict.words.length (p.step capacity s).2 := by
  have hchild := fun m => h.holds.children _ _ s m h.current
  cases hstep : trie_step e.heap e.curr_node s with
  | some m =>
      have hmem := (hchild m).mp hstep
      have hknown : p.current ++ [s] ∈ p.dict.words := h.mem_words.mpr ⟨m, hmem⟩
      simp only [encodeSym, hstep, Parser.step, hknown, dif_pos, pairsFrom, and_true]
      refine ⟨nodes, h.holds, h.words, h.root, hmem, ?_, h.next_code, h.room⟩
      intro w a hw
      obtain ⟨rfl, ha⟩ := List.append_inj' hw rfl
      exact ⟨by simpa using ha, e.curr_node, rfl, h.current⟩
  | none =>
      have hnew : p.current ++ [s] ∉ p.dict.words := by
        intro hin
        obtain ⟨m, hm⟩ := h.mem_words.mp hin
        have := (hchild m).mpr hm
        simp [trie_step] at hstep
        simp [hstep] at this
      have hnew' : p.current ++ [s] ∉ nodes.map Prod.fst := h.words ▸ hnew
      have hroom : nodes.length + 1 < 2 ^ 16 := by
        have := h.room
        simp only [capacity, MAX_CODE, EMPTY_CODE] at this
        omega
      simp only [encodeSym, hstep, Parser.step, hnew, dif_neg, not_false_eq_true, pairsFrom,
        h.code_of_mem h.current, h.next_code, h.words_length, and_true]
      refine advance (d := p.dict.extend p.current s p.known hnew)
        (?_ : Completed _ (nodes ++ [(p.current ++ [s], e.heap.fresh)])) ?_ s
      · refine ⟨h.holds.grow h.current hnew' h.closed rfl hroom, ?_, rfl, ?_, ?_⟩
        · have hpos : 0 < nodes.length := List.length_pos_of_mem h.current
          rw [List.getElem?_append_left hpos]
          exact h.root
        · simp
        · have := h.room
          simp only [List.length_append, List.length_singleton]
          omega
      · simp [Dictionary.extend, h.words]

theorem feed (h : Tracks e p nodes) (syms : List UInt8) :
    (∃ nodes', Tracks (encodeSyms e syms).1 (p.feed capacity syms).1 nodes') ∧
      (encodeSyms e syms).2 = pairsFrom p.dict.words.length (p.feed capacity syms).2 := by
  induction syms generalizing e p nodes with
  | nil => exact ⟨⟨nodes, h⟩, rfl⟩
  | cons s syms ih =>
      obtain ⟨⟨mid, hmid⟩, hfirst⟩ := h.step s
      obtain ⟨htracks, hrest⟩ := ih hmid
      refine ⟨htracks, ?_⟩
      simp only [encodeSyms, Parser.feed, hfirst, hrest, pairsFrom_append, step_length]

theorem curr_eq_root_iff (h : Tracks e p nodes) : e.curr_node = e.root ↔ p.current = [] := by
  have hroot := List.mem_of_getElem? h.root
  constructor
  · intro heq
    exact h.holds.word_unique (heq ▸ h.current) hroot
  · intro heq
    exact h.holds.pointer_unique (heq ▸ h.current) hroot

/-- The last pair is the parser's pending phrase, written with `prev_node`. -/
theorem pending (h : Tracks e p nodes) :
    ∃ next_code, encodePending e =
      some (pairsFrom p.dict.words.length p.pending, next_code) ∧
      next_code = (if p.current = [] then e.next_code else (e.next_code + 1) % MAX_CODE) := by
  unfold encodePending Parser.pending
  cases hlast : p.current.getLast? with
  | none =>
      have hnil := List.getLast?_eq_none_iff.mp hlast
      rw [if_neg (by simp [h.curr_eq_root_iff, hnil])]
      exact ⟨_, rfl, by simp [hnil]⟩
  | some s =>
      have hsplit : p.current = p.current.dropLast ++ [s] :=
        (List.dropLast_append_getLast? s hlast).symm
      have hne : p.current ≠ [] := by
        intro hnil
        simp [hnil] at hlast
      obtain ⟨hsym, n, hprev, hmem⟩ := h.previous _ s hsplit
      rw [if_pos (by simp [h.curr_eq_root_iff, hne]), hprev]
      refine ⟨(e.next_code + 1) % MAX_CODE, ?_, by simp [hne]⟩
      simp [pairsFrom, h.code_of_mem hmem, hsym, h.next_code, h.words_length]

end Tracks

/-! ## The decoder -/

/-- The word table holds the words, each at its code. -/
structure Knows (d : Decoder) (words : List Word) : Prop where
  table : ∀ i < capacity, d.table (i + 1) = words[i]?
  stop : d.table STOP_CODE = none
  next_code : d.next_code = words.length + 1
  room : words.length < capacity

namespace Knows

variable {d : Decoder} {words : List Word}

theorem start : Knows decoderStart [[]] where
  table := by
    intro i _
    rcases i with - | i <;> simp [decoderStart, wt_create, EMPTY_CODE]
  stop := rfl
  next_code := rfl
  room := by simp [capacity, MAX_CODE, EMPTY_CODE]

/-- A word is stored under the next code, and the full table is emptied. -/
theorem store (h : Knows d words) (first : words[0]? = some []) (w : Word) :
    Knows (Decoder.advance ⟨Function.update d.table d.next_code (some w), d.next_code⟩)
      (learn capacity words w) := by
  have hroom := h.room
  have hnext := h.next_code
  simp only [capacity, MAX_CODE, EMPTY_CODE] at hroom
  have hpos : 0 < words.length := (List.getElem?_eq_some_iff.mp first).1
  have hstored : ∀ i < capacity, Function.update d.table d.next_code (some w) (i + 1) =
      (words ++ [w])[i]? := by
    intro i hi
    rcases Nat.lt_trichotomy i words.length with hlt | rfl | hgt
    · rw [Function.update_of_ne (by omega), h.table i hi, List.getElem?_append_left hlt]
    · rw [hnext, Function.update_self, List.getElem?_concat_length]
    · rw [Function.update_of_ne (by omega), h.table i hi, List.getElem?_eq_none (by omega),
        List.getElem?_eq_none (by simp; omega)]
  have hstop : Function.update d.table d.next_code (some w) STOP_CODE = none := by
    rw [Function.update_of_ne (by simp [hnext, STOP_CODE]), h.stop]
  generalize Function.update d.table d.next_code (some w) = table at hstored hstop ⊢
  have hmod : (d.next_code + 1) % 2 ^ 16 = words.length + 2 := by
    rw [hnext, Nat.mod_eq_of_lt (by omega)]
  by_cases hfull : words.length + 1 = capacity
  · have hmax : words.length + 2 = MAX_CODE := by
      simp only [capacity, MAX_CODE, EMPTY_CODE] at hfull ⊢
      omega
    have hadvance : Decoder.advance ⟨table, d.next_code⟩ = ⟨wt_reset table, START_CODE⟩ := by
      simp only [Decoder.advance, hmod, hmax, if_true]
    rw [hadvance, learn, if_pos hfull]
    refine ⟨?_, ?_, rfl, by simp [capacity, MAX_CODE, EMPTY_CODE]⟩
    · intro i hi
      rcases i with - | i
      · have := hstored 0 hi
        rw [List.getElem?_append_left hpos, first] at this
        simpa [wt_reset, START_CODE] using this
      · have hin : START_CODE ≤ i + 1 + 1 ∧ i + 1 + 1 < MAX_CODE := by
          simp only [capacity, START_CODE, MAX_CODE, EMPTY_CODE] at hi ⊢
          omega
        simp [wt_reset, hin]
    · simpa [wt_reset, START_CODE, STOP_CODE] using hstop
  · have hmax : words.length + 2 ≠ MAX_CODE := by
      simp only [capacity, MAX_CODE, EMPTY_CODE] at hfull ⊢
      omega
    have hadvance : Decoder.advance ⟨table, d.next_code⟩ = ⟨table, words.length + 2⟩ := by
      simp only [Decoder.advance, hmod, hmax, if_false]
    rw [hadvance, learn, if_neg hfull]
    refine ⟨hstored, hstop, by simp, ?_⟩
    simp only [List.length_append, List.length_singleton, capacity, MAX_CODE, EMPTY_CODE]
      at hfull ⊢
    omega

/-- A phrase is read back as the word its code stands for and its symbol. -/
theorem decodePair (h : Knows d words) (first : words[0]? = some []) {phrase : ℕ × UInt8}
    {words' : List Word} {w : Word} (hstep : unstep capacity words phrase = some (words', w)) :
    ∃ d', Lz78.decodePair d (phrase.1 + 1) phrase.2 = some (d', w) ∧ Knows d' words' := by
  obtain ⟨u, hu, hwords, rfl⟩ : ∃ u, words[phrase.1]? = some u ∧
      learn capacity words (u ++ [phrase.2]) = words' ∧ u ++ [phrase.2] = w := by
    simpa [unstep, Option.map_eq_some_iff] using hstep
  subst hwords
  have hlt := (List.getElem?_eq_some_iff.mp hu).1
  have hroom := h.room
  have hin : phrase.1 + 1 < MAX_CODE := by
    simp only [capacity, MAX_CODE, EMPTY_CODE] at hroom ⊢
    omega
  refine ⟨_, ?_, h.store first (u ++ [phrase.2])⟩
  rw [Lz78.decodePair, if_pos hin, h.table phrase.1 (by omega), hu]
  rfl

end Knows

theorem learn_first {words : List Word} (first : words[0]? = some []) (w : Word) :
    (learn capacity words w)[0]? = some [] := by
  unfold learn
  split
  · rfl
  · rw [List.getElem?_append_left (List.getElem?_eq_some_iff.mp first).1, first]

/-- The loop of the decoder reads a list of phrases back. -/
theorem Knows.decodePairs {d : Decoder} {words : List Word} (h : Knows d words)
    (first : words[0]? = some []) {phrases : List (ℕ × UInt8)} {words' : List Word}
    {text : List UInt8} (hread : unparse capacity words phrases = some (words', text)) :
    ∃ d', Lz78.decodePairs d (pairsFrom words.length phrases) = some (d', text) ∧
      Knows d' words' := by
  induction phrases generalizing d words text with
  | nil =>
      obtain ⟨rfl, rfl⟩ := unparse_nil_eq_some.mp hread
      exact ⟨d, rfl, h⟩
  | cons phrase phrases ih =>
      obtain ⟨u, rest, hword, hrest, rfl⟩ := unparse_cons_eq_some.mp hread
      obtain ⟨mid, hmid, hknows⟩ := h.decodePair first (unstep_eq hword)
      obtain ⟨d', hd', hlast⟩ := ih hknows (learn_first first _) hrest
      refine ⟨d', ?_, hlast⟩
      rw [learn_length] at hd'
      simp [pairsFrom, Lz78.decodePairs, hmid, hd']

/-! ## Both sides together -/

/-- Code `k` belongs to one node of the trie, and the table holds the word that leads
there from the root. -/
def Agree (e : Encoder) (d : Decoder) (k : ℕ) : Prop :=
  ∃ n w, walk e.heap e.root w = some n ∧ (e.heap.node n).code = k ∧ d.table k = some w ∧
    ∀ n' w', walk e.heap e.root w' = some n' → (e.heap.node n').code = k → n' = n ∧ w' = w

theorem Tracks.agree {e : Encoder} {d : Decoder} {p : Parser UInt8} {nodes : List (Word × ℕ)}
    (h : Tracks e p nodes) {i : ℕ} (hi : i < nodes.length)
    (htable : d.table (i + 1) = p.dict.words[i]?) : Agree e d (i + 1) := by
  have hget : nodes[i]? = some (nodes[i].1, nodes[i].2) := List.getElem?_eq_getElem hi
  have hwalk := fun w n => h.holds.walk_iff (w := w) (n := n) h.root h.closed
  refine ⟨nodes[i].2, nodes[i].1, (hwalk _ _).mpr (List.mem_of_getElem? hget),
    h.holds.code i _ _ hget, ?_, ?_⟩
  · rw [htable, ← h.words, List.getElem?_map, hget]
    rfl
  · intro n' w' hw' hcode
    obtain ⟨j, hj⟩ := List.getElem?_of_mem ((hwalk _ _).mp hw')
    obtain rfl : j = i := by
      have := (h.holds.code j _ _ hj).symm.trans hcode
      omega
    obtain ⟨hw, hn⟩ := Prod.mk.inj (Option.some.inj (hget.symm.trans hj))
    exact ⟨hn.symm, hw.symm⟩

/-- The codes of the trie are those below the next one. -/
theorem Tracks.code_lt {e : Encoder} {p : Parser UInt8} {nodes : List (Word × ℕ)}
    (h : Tracks e p nodes) (hwalk : walk e.heap e.root w = some n) :
    (e.heap.node n).code < e.next_code := by
  obtain ⟨i, hi⟩ := List.getElem?_of_mem ((h.holds.walk_iff h.root h.closed).mp hwalk)
  have hlt := (List.getElem?_eq_some_iff.mp hi).1
  rw [h.holds.code i w n hi, h.next_code]
  omega

/-- The decoder after the pairs written for `syms`, against the encoder. -/
theorem decode_encodeSyms (syms : List UInt8) :
    ∃ nodes d text, Tracks (encodeSyms encoderStart syms).1
        (Parser.start.feed capacity syms).1 nodes ∧
      decodePairs decoderStart (encodeSyms encoderStart syms).2 = some (d, text) ∧
      Knows d (Parser.start.feed capacity syms).1.dict.words := by
  obtain ⟨⟨nodes, htracks⟩, hpairs⟩ := Tracks.start.feed syms
  obtain ⟨done, hdone, -⟩ := feed_unparse capacity Parser.start syms
  obtain ⟨d, hd, hknows⟩ := Knows.start.decodePairs rfl hdone
  exact ⟨nodes, d, done, htracks, hpairs ▸ hd, hknows⟩

theorem encodePairs_eq (syms : List UInt8) :
    encodePairs syms = some (pairsFrom 1 (phrases capacity syms)) := by
  obtain ⟨⟨nodes, htracks⟩, hpairs⟩ := Tracks.start.feed syms
  obtain ⟨next_code, hpending, -⟩ := htracks.pending
  rw [encodePairs, hpending, Option.map_some, hpairs, feed_length, phrases, pairsFrom_append]
  rfl

/-- Whatever the text, the decoder reads back every pair the encoder writes and writes
the text; at every point of the encoder's loop the decoder's table, after the pairs
written so far, holds for every code in use the word of its node; after the pair of an
unfinished word it still does, that pair's own code standing for the unfinished word. -/
theorem decode_encode_pairs (syms more : List UInt8) :
    (∃ d text, decodePairs decoderStart (encodeSyms encoderStart syms).2 = some (d, text) ∧
      d.next_code = (encodeSyms encoderStart syms).1.next_code ∧
      ∀ k, EMPTY_CODE ≤ k → k < d.next_code → Agree (encodeSyms encoderStart syms).1 d k) ∧
    ∃ pairs d, encodePairs (syms ++ more) = some pairs ∧
      decodePairs decoderStart pairs = some (d, syms ++ more) ∧
      ∀ e, e = (encodeSyms encoderStart (syms ++ more)).1 →
        ∀ k, EMPTY_CODE ≤ k → k < d.next_code → (k ≠ e.next_code → Agree e d k) ∧
          (k = e.next_code →
            ∃ w, d.table k = some w ∧ walk e.heap e.root w = some e.curr_node) := by
  constructor
  · obtain ⟨nodes, d, text, htracks, hd, hknows⟩ := decode_encodeSyms syms
    have hlength := htracks.words_length
    refine ⟨d, text, hd, ?_, ?_⟩
    · rw [hknows.next_code, htracks.next_code, hlength]
    · intro k hpos hlt
      obtain ⟨i, rfl⟩ : ∃ i, k = i + 1 := ⟨k - 1, by simp only [EMPTY_CODE] at hpos; omega⟩
      have hi : i < nodes.length := by
        rw [hknows.next_code] at hlt
        omega
      exact htracks.agree hi (hknows.table i (by have := htracks.room; omega))
  · generalize syms ++ more = syms
    obtain ⟨nodes, d, text, htracks, -, hknows⟩ := decode_encodeSyms syms
    have hlength := htracks.words_length
    obtain ⟨d', hd', hlast⟩ := Knows.start.decodePairs rfl (unparse_phrases capacity syms)
    refine ⟨_, d', encodePairs_eq syms, hd', ?_⟩
    rintro e rfl k hpos hlt
    obtain ⟨i, rfl⟩ : ∃ i, k = i + 1 := ⟨k - 1, by simp only [EMPTY_CODE] at hpos; omega⟩
    have hroom := htracks.room
    simp only at hlast
    rw [hlast.next_code] at hlt
    rw [htracks.next_code]
    by_cases hcurrent : (Parser.start.feed capacity syms).1.current = []
    · rw [if_pos hcurrent] at hlast hlt
      have htable := hlast.table i (by omega)
      exact ⟨fun _ => htracks.agree (by omega) htable, fun h => by omega⟩
    · rw [if_neg hcurrent] at hlast hlt
      have htable := hlast.table i
      rw [learn] at hlast hlt htable
      split at hlt
      · -- the pair filled the table, which holds the empty word alone
        next hfull =>
          have hone : i + 1 < 2 := by simpa using hlt
          obtain rfl : i = 0 := by omega
          have hnodes := List.length_pos_of_mem htracks.current
          have hempty : d'.table (0 + 1) = (Parser.start.feed capacity syms).1.dict.words[0]? := by
            rw [htable (by omega), if_pos hfull, Dictionary.first]
            rfl
          exact ⟨fun _ => htracks.agree (by omega) hempty, fun h => by omega⟩
      · next hfull =>
          rw [if_neg hfull] at htable
          simp only [List.length_append, List.length_singleton] at hlt
          constructor
          · intro hne
            have hi : i < nodes.length := by omega
            refine htracks.agree hi ?_
            rw [htable (by omega), List.getElem?_append_left (by omega)]
          · intro hown
            obtain rfl : i = nodes.length := by omega
            refine ⟨_, ?_, (htracks.holds.walk_iff htracks.root htracks.closed).mpr htracks.current⟩
            rw [htable (by omega), ← hlength, List.getElem?_concat_length]

theorem decode_encode_pairs_one : ∃ d text,
    decodePairs decoderStart (encodeSyms encoderStart [97, 98]).2 = some (d, text) ∧
      Agree (encodeSyms encoderStart [97, 98]).1 d 3 := by
  obtain ⟨⟨d, text, hd, hnext, hagree⟩, -⟩ := decode_encode_pairs [97, 98] []
  exact ⟨d, text, hd, hagree 3 (by decide) (by rw [hnext]; decide)⟩

/-- After the pairs of `aa` code 3 is in use in the table, and no node of the trie has
that code; and `table[0]` is `NULL`. -/
theorem pending_code_without_node : ∃ pairs d, encodePairs [97, 97] = some pairs ∧
    decodePairs decoderStart pairs = some (d, [97, 97]) ∧ 3 < d.next_code ∧ d.table 0 = none ∧
    ∀ n w, walk (encodeSyms encoderStart [97, 97]).1.heap
      (encodeSyms encoderStart [97, 97]).1.root w = some n →
        ((encodeSyms encoderStart [97, 97]).1.heap.node n).code ≠ 3 := by
  obtain ⟨⟨nodes, htracks⟩, -⟩ := Tracks.start.feed [97, 97]
  refine ⟨_, _, rfl, rfl, by decide, rfl, ?_⟩
  intro n w hwalk
  exact Nat.ne_of_lt (htracks.code_lt hwalk)

end FavoriteAssignments.Lz78
