import FavoriteAssignments.Library.Trees
import FavoriteAssignments.Lz78.Synchronisation

/-! # The memory of the trie

`trie_delete` on the heap that the loop of `encode` leaves: it gives back what the root
reaches, and `trie_reset` has cut off everything before the last reset. -/

namespace FavoriteAssignments.Lz78

open PhraseDictionary Trees

def ALPHABET : ℕ := 256

/-! ## The program -/

/-- `free`, where `n` comes from `malloc` and has not been given back. -/
def trie_node_delete (heap : Heap) (freed : List ℕ) (n : ℕ) : Option (List ℕ) :=
  if n < heap.fresh ∧ n ∉ freed then some (freed ++ [n]) else none

/-- The addresses given back, in order. Reading a child of a node that has been given back
has no result. -/
def trie_delete (heap : Heap) : ℕ → List ℕ → ℕ → Option (List ℕ)
  | 0, _, _ => none
  | fuel + 1, freed, n =>
      ((List.range ALPHABET).foldlM (fun freed i =>
        if n < heap.fresh ∧ n ∉ freed then
          match (heap.node n).children (UInt8.ofNat i) with
          | some child => trie_delete heap fuel freed child
          | none => some freed
        else none) freed).bind fun freed => trie_node_delete heap freed n

/-! ## The traversal -/

/-- `n->children[sym]`. -/
abbrev Heap.child (heap : Heap) (n : ℕ) (sym : UInt8) : Option ℕ := (heap.node n).children sym

/-- The symbols in the order of the loop. -/
def symbols : List UInt8 := (List.range ALPHABET).map UInt8.ofNat

theorem mem_symbols (s : UInt8) : s ∈ symbols :=
  List.mem_map.mpr ⟨s.toNat, List.mem_range.mpr s.toNat_lt, by simp⟩

theorem nodup_symbols : symbols.Nodup := by
  refine (List.nodup_map_iff_inj_on List.nodup_range).mpr ?_
  intro i hi j hj hij
  simp only [ALPHABET, List.mem_range] at hi hj
  have := congrArg UInt8.toNat hij
  simp only [UInt8.toNat_ofNat'] at this
  omega

/-- On a tree of allocated nodes `trie_delete` is the traversal. -/
theorem trie_delete_eq_release {heap : Heap} {node : Word → ℕ → Prop}
    (h : Tree heap.child node) (hallocated : ∀ w n, node w n → n < heap.fresh)
    (fuel : ℕ) (freed : List ℕ) {w : Word} {n : ℕ} (hn : node w n) :
    trie_delete heap fuel freed n = release heap.child symbols fuel freed n := by
  induction fuel generalizing w n freed with
  | zero => rfl
  | succ fuel ih =>
      have hfresh := hallocated w n hn
      have hloop : ∀ (is : List ℕ) (freed : List ℕ),
          is.foldlM (fun freed i =>
            if n < heap.fresh ∧ n ∉ freed then
              match (heap.node n).children (UInt8.ofNat i) with
              | some child => trie_delete heap fuel freed child
              | none => some freed
            else none) freed =
          releaseKeys (release heap.child symbols fuel) heap.child n (is.map UInt8.ofNat)
            freed := by
        intro is
        induction is with
        | nil => exact fun _ => rfl
        | cons i is ihs =>
            intro freed
            rw [List.foldlM_cons, List.map_cons, releaseKeys]
            by_cases hin : n ∈ freed
            · simp [hin]
            · rw [if_pos ⟨hfresh, hin⟩, if_neg hin]
              cases hchild : heap.child n (UInt8.ofNat i) with
              | none => simpa [hchild] using ihs freed
              | some m =>
                  have hm := (h.child_iff w n _ m hn).mp hchild
                  simp only [hchild, ih freed hm]
                  exact Option.bind_congr fun freed _ => ihs freed
      rw [trie_delete, hloop, release, symbols]
      refine Option.bind_congr fun freed _ => ?_
      by_cases hin : n ∈ freed <;> simp [trie_node_delete, hfresh, hin]

/-! ## The encoder -/

theorem Tracks.tree {e : Encoder} {p : Parser UInt8} {nodes : List (Word × ℕ)}
    (h : Tracks e p nodes) : Tree e.heap.child fun w n => (w, n) ∈ nodes where
  word _ _ _ hv hw := h.holds.word_unique hv hw
  pointer _ _ _ hp hq := h.holds.pointer_unique hp hq
  closed w k q hq := by
    obtain ⟨⟨v, m⟩, hm, rfl⟩ := List.mem_map.mp (h.closed w k (List.mem_map_of_mem hq))
    exact ⟨m, hm⟩
  child_iff w p k q hp := h.holds.children w p k q hp

/-- Everything the root reaches is given back, each node once. -/
theorem Tracks.trie_delete {e : Encoder} {p : Parser UInt8} {nodes : List (Word × ℕ)}
    (h : Tracks e p nodes) (more : ℕ) :
    ∃ freed, Lz78.trie_delete e.heap (MAX_CODE + more) [] e.root = some freed ∧
      freed.Perm (nodes.map Prod.snd) := by
  have hroot := List.mem_of_getElem? h.root
  have hdepth : ∀ v q, (v, q) ∈ nodes → v.length < ([] : Word).length + (MAX_CODE + more) := by
    intro v q hv
    have hlt := length_lt_of_closed h.closed (List.mem_map_of_mem hv)
    have hroom := h.room
    simp only [List.length_map, List.length_nil, capacity, MAX_CODE, EMPTY_CODE]
      at hlt hroom ⊢
    omega
  obtain ⟨freed, hfreed, hbelow⟩ :=
    h.tree.release_eq nodup_symbols mem_symbols [] hroot hdepth (by simp)
  refine ⟨freed, ?_, ?_⟩
  · rw [trie_delete_eq_release h.tree (fun w n hn => h.holds.allocated (w, n) hn) _ _ hroot,
      hfreed, List.nil_append]
  · rw [List.perm_ext_iff_of_nodup hbelow.nodup h.holds.pointers]
    intro n
    simp [hbelow.mem_iff]

/-- One node for the root, and one for each pair. -/
theorem encodeSyms_fresh (e : Encoder) (syms : List UInt8) :
    (encodeSyms e syms).1.heap.fresh = e.heap.fresh + (encodeSyms e syms).2.length := by
  induction syms generalizing e with
  | nil => rfl
  | cons s syms ih =>
      have hstep : (encodeSym e s).1.heap.fresh = e.heap.fresh + (encodeSym e s).2.length := by
        unfold encodeSym Encoder.advance
        cases trie_step e.heap e.curr_node s with
        | some m => rfl
        | none =>
            simp only
            split <;> rfl
      rw [encodeSyms, ih, hstep, List.length_append, Nat.add_assoc]

/-- After any input `trie_delete` ends. It gives back each node that the root reaches once
and nothing else, one for the root and one for each pair since the last reset; what came
before is lost, so that everything is given back when there was no reset. -/
theorem trie_delete_frees (syms : List UInt8) (more : ℕ) :
    ∃ freed, trie_delete (encodeSyms encoderStart syms).1.heap (MAX_CODE + more) []
        (encodeSyms encoderStart syms).1.root = some freed ∧
      freed.Nodup ∧
      (∀ n, n ∈ freed ↔ ∃ w, walk (encodeSyms encoderStart syms).1.heap
        (encodeSyms encoderStart syms).1.root w = some n) ∧
      freed.length =
        1 + (encodeSyms encoderStart syms).2.length % (MAX_CODE - START_CODE) ∧
      ((∀ n < (encodeSyms encoderStart syms).1.heap.fresh, n ∈ freed) ↔
        (encodeSyms encoderStart syms).2.length < MAX_CODE - START_CODE) := by
  obtain ⟨⟨nodes, htracks⟩, hpairs⟩ := Tracks.start.feed syms
  obtain ⟨freed, hfreed, hperm⟩ := htracks.trie_delete more
  have hfresh : (encodeSyms encoderStart syms).1.heap.fresh =
      1 + (encodeSyms encoderStart syms).2.length := encodeSyms_fresh encoderStart syms
  have hlength : freed.length =
      1 + (encodeSyms encoderStart syms).2.length % (MAX_CODE - START_CODE) := by
    have hcount : (encodeSyms encoderStart syms).2.length =
        (Parser.start.feed capacity syms).2.length := by
      rw [hpairs, length_pairsFrom]
    have hwords : nodes.length =
        (nextLength capacity)^[(Parser.start.feed capacity syms).2.length] 1 := by
      rw [← htracks.words_length, feed_length]
      rfl
    rw [hperm.length_eq, List.length_map, hwords, nextLength_iterate (by decide), hcount]
    rfl
  have hnodup : freed.Nodup := hperm.nodup_iff.mpr htracks.holds.pointers
  refine ⟨freed, hfreed, hnodup, ?_, hlength, ?_⟩
  · intro n
    simp [hperm.mem_iff, htracks.holds.walk_iff htracks.root htracks.closed]
  · have hrange : freed ⊆ List.range (encodeSyms encoderStart syms).1.heap.fresh := by
      intro n hn
      obtain ⟨⟨w, m⟩, hm, rfl⟩ := List.mem_map.mp (hperm.mem_iff.mp hn)
      exact List.mem_range.mpr (htracks.holds.allocated (w, m) hm)
    rw [hfresh] at hrange ⊢
    generalize (encodeSyms encoderStart syms).2.length = pairs at hlength hrange ⊢
    simp only [MAX_CODE, START_CODE] at hlength ⊢
    constructor
    · intro hall
      have hle := (List.nodup_range (n := 1 + pairs)).subperm
        (fun n hn => hall n (List.mem_range.mp hn)) |>.length_le
      rw [List.length_range] at hle
      omega
    · intro hlt n hn
      have hsame := (hnodup.subperm hrange).perm_of_length_le (by
        rw [List.length_range]
        omega)
      exact hsame.mem_iff.mpr (List.mem_range.mpr hn)

end FavoriteAssignments.Lz78
