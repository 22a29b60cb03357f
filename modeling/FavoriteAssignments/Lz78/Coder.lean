import Mathlib.Algebra.Group.Nat.Defs
import Mathlib.Logic.Function.Basic

/-! # The LZ78 coder

`trie.c`, `word.c` and the loops of `encode.c` and `decode.c`, on pairs of a code and
a symbol. A pointer is an index into the heap; reading through a null pointer or
outside the word table has no result. -/

namespace FavoriteAssignments.Lz78

def STOP_CODE : ℕ := 0
def EMPTY_CODE : ℕ := 1
def START_CODE : ℕ := 2
def MAX_CODE : ℕ := 65535

/-- `bitlen`, whose argument has 32 bits. -/
def bitlenLoop : ℕ → ℕ → ℕ → ℕ
  | 0, _, len => len
  | fuel + 1, code, len => if code > 0 then bitlenLoop fuel (code >>> 1) (len + 1) else len

def bitlen (code : ℕ) : ℕ := bitlenLoop 32 code 0

/-! ## The trie -/

structure TrieNode where
  children : UInt8 → Option ℕ
  code : ℕ

/-- Every node ever allocated, and the next address. -/
structure Heap where
  node : ℕ → TrieNode
  fresh : ℕ

def trie_node_create (heap : Heap) (code : ℕ) : Heap × ℕ :=
  ({ node := Function.update heap.node heap.fresh ⟨fun _ => none, code % 2 ^ 16⟩
     fresh := heap.fresh + 1 }, heap.fresh)

def trie_create : Heap × ℕ := trie_node_create ⟨fun _ => ⟨fun _ => none, 0⟩, 0⟩ EMPTY_CODE

def trie_reset (heap : Heap) (root : ℕ) : Heap :=
  { heap with
    node := Function.update heap.node root { heap.node root with children := fun _ => none } }

def trie_step (heap : Heap) (n : ℕ) (sym : UInt8) : Option ℕ := (heap.node n).children sym

/-- `n->children[sym] = child`. -/
def Heap.setChild (heap : Heap) (n : ℕ) (sym : UInt8) (child : ℕ) : Heap :=
  { heap with
    node := Function.update heap.node n
      { heap.node n with children := Function.update (heap.node n).children sym (some child) } }

/-! ## Compression -/

/-- A pair as it is handed to `write_pair`, with its width. -/
structure Pair where
  code : ℕ
  sym : UInt8
  bitlen : ℕ
  deriving DecidableEq, Repr

structure Encoder where
  heap : Heap
  root : ℕ
  curr_node : ℕ
  prev_node : Option ℕ
  prev_sym : UInt8
  next_code : ℕ

def encoderStart : Encoder where
  heap := trie_create.1
  root := trie_create.2
  curr_node := trie_create.2
  prev_node := none
  prev_sym := 0
  next_code := START_CODE

/-- The end of the branch that completes a word: `next_code++`, and the reset. -/
def Encoder.advance (e : Encoder) : Encoder :=
  let e := { e with next_code := e.next_code + 1 }
  if e.next_code = MAX_CODE then
    { e with heap := trie_reset e.heap e.root, curr_node := e.root, next_code := START_CODE }
  else e

/-- The body of the loop for one symbol, with the pairs it writes. -/
def encodeSym (e : Encoder) (curr_sym : UInt8) : Encoder × List Pair :=
  match trie_step e.heap e.curr_node curr_sym with
  | some next_node =>
      ({ e with prev_node := some e.curr_node, curr_node := next_node, prev_sym := curr_sym }, [])
  | none =>
      let pair : Pair := ⟨(e.heap.node e.curr_node).code, curr_sym, bitlen e.next_code⟩
      let created := trie_node_create e.heap e.next_code
      let e' :=
        { e with
          heap := created.1.setChild e.curr_node curr_sym created.2
          curr_node := e.root }
      ({ e'.advance with prev_sym := curr_sym }, [pair])

def encodeSyms (e : Encoder) : List UInt8 → Encoder × List Pair
  | [] => (e, [])
  | sym :: syms =>
      let next := encodeSym e sym
      let rest := encodeSyms next.1 syms
      (rest.1, next.2 ++ rest.2)

/-- `if (curr_node != root)`: the pair of an unfinished word, and `next_code` after it. -/
def encodePending (e : Encoder) : Option (List Pair × ℕ) :=
  if e.curr_node ≠ e.root then
    e.prev_node.map fun prev_node =>
      ([⟨(e.heap.node prev_node).code, e.prev_sym, bitlen e.next_code⟩],
        (e.next_code + 1) % MAX_CODE)
  else some ([], e.next_code)

/-- Every pair written for `syms`, the stop pair apart. -/
def encodePairs (syms : List UInt8) : Option (List Pair) :=
  let fed := encodeSyms encoderStart syms
  (encodePending fed.1).map fun pending => fed.2 ++ pending.1

/-! ## Decompression -/

abbrev Word := List UInt8

/-- `table[code]`, read inside the `MAX_CODE` entries of the table. -/
structure Decoder where
  table : ℕ → Option Word
  next_code : ℕ

def word_append_sym (w : Word) (sym : UInt8) : Word := w ++ [sym]

def wt_create : ℕ → Option Word := fun i => if i = EMPTY_CODE then some [] else none

def wt_reset (wt : ℕ → Option Word) : ℕ → Option Word :=
  fun i => if START_CODE ≤ i ∧ i < MAX_CODE then none else wt i

def decoderStart : Decoder := ⟨wt_create, START_CODE⟩

/-- `next_code++`, and the reset. -/
def Decoder.advance (d : Decoder) : Decoder :=
  let d := { d with next_code := (d.next_code + 1) % 2 ^ 16 }
  if d.next_code = MAX_CODE then { d with table := wt_reset d.table, next_code := START_CODE }
  else d

/-- The body of the loop for one pair, with the word it writes. -/
def decodePair (d : Decoder) (curr_code : ℕ) (curr_sym : UInt8) : Option (Decoder × Word) :=
  if curr_code < MAX_CODE then
    (d.table curr_code).map fun w =>
      let word := word_append_sym w curr_sym
      ({ d with table := Function.update d.table d.next_code (some word) }.advance, word)
  else none

def decodePairs (d : Decoder) : List Pair → Option (Decoder × List UInt8)
  | [] => some (d, [])
  | pair :: pairs =>
      match decodePair d pair.code pair.sym with
      | none => none
      | some (d', w) => (decodePairs d' pairs).map fun r => (r.1, w ++ r.2)

end FavoriteAssignments.Lz78
