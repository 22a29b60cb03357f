import FavoriteAssignments.Library.Blocks
import FavoriteAssignments.Lz78.Refinement

/-! # The memory of the word table

`word.c` and the loop of `decode` with every word in two blocks from `malloc`: the words are
those of the table of values, a block is read only while it is in use, and `wt_reset` gives
every block back that the table reaches. -/

namespace FavoriteAssignments.Lz78.InMemory

open PhraseDictionary Blocks

/-! ## The program -/

/-- A `Word`, or the symbols of one. -/
inductive Block where
  | word (syms : Option ℕ) (len : ℕ)
  | symbols (bytes : List UInt8)

/-- `memcpy` from `source`: the first `len` bytes, which must be there. -/
def memcpy (m : Memory Block) (source : Option ℕ) (len : ℕ) : Option (List UInt8) :=
  if len = 0 then some []
  else
    match source.bind m.block with
    | some (.symbols bytes) => if len ≤ bytes.length then some (bytes.take len) else none
    | _ => none

/-- `*w`. -/
def read (m : Memory Block) (w : ℕ) : Option (Option ℕ × ℕ) :=
  match m.block w with
  | some (.word syms len) => some (syms, len)
  | _ => none

def word_create (m : Memory Block) (syms : Option ℕ) (len : ℕ) : Option (Memory Block × ℕ) := do
  let (m, w) := m.malloc (.word none 0)
  let (m, copy) := m.malloc (.symbols (List.replicate len 0))
  let m ← m.store w (.word (some copy) len)
  let bytes ← memcpy m syms len
  let m ← m.store copy (.symbols bytes)
  return (m, w)

/-- The length is a `uint32_t`: at its bound `newsyms` would have no room. -/
def word_append_sym (m : Memory Block) (w : ℕ) (sym : UInt8) : Option (Memory Block × ℕ) := do
  let (syms, len) ← read m w
  if len + 1 < 2 ^ 32 then
    let (m, newsyms) := m.malloc (.symbols (List.replicate (len + 1) 0))
    let bytes ← memcpy m syms len
    let m ← m.store newsyms (.symbols (bytes ++ [sym]))
    let (m, newword) ← word_create m (some newsyms) (len + 1)
    let m ← m.free newsyms
    return (m, newword)
  else none

def word_delete (m : Memory Block) (w : ℕ) : Option (Memory Block) := do
  let (syms, _) ← read m w
  let m ← (match syms with
    | some s => m.free s
    | none => some m)
  m.free w

structure Decoder where
  memory : Memory Block
  table : ℕ → Option ℕ
  next_code : ℕ

/-- The table itself is not among the blocks. -/
def wt_create : Option (Memory Block × (ℕ → Option ℕ)) :=
  (word_create Memory.empty none 0).map fun created =>
    (created.1, fun i => if i = EMPTY_CODE then some created.2 else none)

def wt_reset (m : Memory Block) (wt : ℕ → Option ℕ) :
    Option (Memory Block × (ℕ → Option ℕ)) :=
  (List.range' START_CODE (MAX_CODE - START_CODE)).foldlM (fun state i =>
    match state.2 i with
    | some w => (word_delete state.1 w).map fun m => (m, Function.update state.2 i none)
    | none => some state) (m, wt)

def decoderStart : Option Decoder :=
  wt_create.map fun created => ⟨created.1, created.2, START_CODE⟩

/-- `next_code++`, and the reset. -/
def Decoder.advance (d : Decoder) : Option Decoder :=
  let next_code := (d.next_code + 1) % 2 ^ 16
  if next_code = MAX_CODE then
    (wt_reset d.memory d.table).map fun reset => ⟨reset.1, reset.2, START_CODE⟩
  else some { d with next_code := next_code }

/-- The body of the loop for one pair, with the bytes that `write_word` takes. -/
def decodePair (d : Decoder) (curr_code : ℕ) (curr_sym : UInt8) :
    Option (Decoder × List UInt8) :=
  if curr_code < MAX_CODE then do
    let w ← d.table curr_code
    let (memory, word) ← word_append_sym d.memory w curr_sym
    let (syms, len) ← read memory word
    let bytes ← memcpy memory syms len
    let d ← (Decoder.mk memory (Function.update d.table d.next_code (some word))
      d.next_code).advance
    return (d, bytes)
  else none

def decodePairs (d : Decoder) : List Pair → Option (Decoder × List UInt8)
  | [] => some (d, [])
  | pair :: pairs => do
      let (d, word) ← decodePair d pair.code pair.sym
      let (d, rest) ← decodePairs d pairs
      return (d, word ++ rest)

/-! ## One word -/

/-- A word with its two blocks. -/
structure Object where
  word : ℕ
  syms : ℕ
  value : Word

def Object.cells (o : Object) : List (ℕ × Block) :=
  [(o.word, .word (some o.syms) o.value.length), (o.syms, .symbols o.value)]

variable {m : Memory Block} {cells : List (ℕ × Block)} {o : Object}

theorem read_eq (h : Owns m cells) (ho : o.cells ⊆ cells) :
    read m o.word = some (some o.syms, o.value.length) := by
  rw [read, h.read (ho List.mem_cons_self)]

theorem memcpy_eq (h : Owns m cells) {p : ℕ} {bytes : List UInt8}
    (hp : (p, Block.symbols bytes) ∈ cells) :
    memcpy m (some p) bytes.length = some bytes := by
  unfold memcpy
  split
  · next hzero => rw [List.eq_nil_of_length_eq_zero hzero]
  · simp [h.read hp]

/-- `word_create` puts a copy into two new blocks. -/
theorem word_create_eq (h : Owns m cells) (source : Option ℕ) (bytes : List UInt8)
    (hsource : ∀ m' cells', Owns m' (cells' ++ cells) →
      memcpy m' source bytes.length = some bytes) :
    ∃ (m' : Memory Block) (o : Object),
      word_create m source bytes.length = some (m', o.word) ∧ o.value = bytes ∧
        Owns m' (o.cells ++ cells) := by
  have hw := h.malloc (.word none 0)
  have hs := hw.malloc (.symbols (List.replicate bytes.length 0))
  obtain ⟨m₁, hm₁, h₁⟩ := (hs.perm (List.Perm.swap _ _ _)).store
    (.word (some (m.malloc (.word none 0)).1.fresh) bytes.length)
  obtain ⟨m₂, hm₂, h₂⟩ := (h₁.perm (List.Perm.swap _ _ _)).store (.symbols bytes)
  refine ⟨m₂, ⟨m.fresh, (m.malloc (.word none 0)).1.fresh, bytes⟩, ?_, rfl,
    h₂.perm (List.Perm.swap _ _ _)⟩
  have hcopy := hsource m₁ [_, _] h₁
  simp only [word_create]
  simp only [Memory.malloc] at hm₁ hm₂ ⊢
  simp only [Option.pure_def, Option.bind_eq_bind, hm₁, Option.bind_some, hcopy, hm₂]

/-- The appended word is a new object; the memory for `newsyms` is given back. -/
theorem word_append_sym_eq (h : Owns m cells) (ho : o.cells ⊆ cells)
    (hlength : o.value.length + 1 < 2 ^ 32) (sym : UInt8) :
    ∃ (m' : Memory Block) (o' : Object), word_append_sym m o.word sym = some (m', o'.word) ∧
      o'.value = o.value ++ [sym] ∧ Owns m' (o'.cells ++ cells) := by
  have hread := read_eq h ho
  have h₁ := h.malloc (.symbols (List.replicate (o.value.length + 1) 0))
  have hsyms : (o.syms, Block.symbols o.value) ∈ cells := ho (by simp [Object.cells])
  have hbytes := memcpy_eq h₁ (List.mem_cons_of_mem _ hsyms)
  obtain ⟨m₂, hm₂, h₂⟩ := h₁.store (.symbols (o.value ++ [sym]))
  obtain ⟨m₃, o', hm₃, hvalue, h₃⟩ := word_create_eq h₂ (some m.fresh)
    (o.value ++ [sym]) fun m' cells' h' => memcpy_eq h' (by simp)
  obtain ⟨m₄, hm₄, h₄⟩ := (h₃.perm List.perm_middle).free
  refine ⟨m₄, o', ?_, hvalue, h₄⟩
  rw [List.length_append, List.length_singleton] at hm₃
  simp only [word_append_sym, hread, Option.bind_eq_bind, Option.bind_some, if_pos hlength]
  simp only [Memory.malloc] at hm₂ hm₃ hbytes ⊢
  simp only [hbytes, Option.bind_some, hm₂, hm₃, hm₄, Option.pure_def]

theorem word_delete_eq (h : Owns m (o.cells ++ cells)) :
    ∃ m', word_delete m o.word = some m' ∧ Owns m' cells := by
  obtain ⟨m₁, hm₁, h₁⟩ := (h.perm (List.Perm.swap _ _ _)).free
  obtain ⟨m₂, hm₂, h₂⟩ := h₁.free
  refine ⟨m₂, ?_, h₂⟩
  rw [word_delete, read_eq h (List.subset_append_left _ _)]
  simp only [Option.bind_eq_bind, Option.bind_some, hm₁, hm₂]

/-! ## The table -/

/-- The loop of `wt_reset` over `n` entries from `k` on, where the objects stand in order. -/
theorem reset_loop (n k : ℕ) (rest : List Object) {kept : List (ℕ × Block)}
    (wt : ℕ → Option ℕ) (h : Owns m (rest.flatMap Object.cells ++ kept))
    (htable : ∀ j < n, wt (k + j) = rest[j]?.map Object.word) (hlength : rest.length ≤ n) :
    ∃ m' wt', (List.range' k n).foldlM (fun (state : Memory Block × (ℕ → Option ℕ)) i =>
        match state.2 i with
        | some w => (word_delete state.1 w).map fun m => (m, Function.update state.2 i none)
        | none => some state) (m, wt) = some (m', wt') ∧
      Owns m' kept ∧ ∀ i, wt' i = if k ≤ i ∧ i < k + n then none else wt i := by
  induction n generalizing k rest m wt with
  | zero =>
      obtain rfl := List.eq_nil_of_length_eq_zero (Nat.le_zero.mp hlength)
      exact ⟨m, wt, rfl, h, fun i => by rw [if_neg (by omega)]⟩
  | succ n ih =>
      have hfirst := htable 0 (Nat.succ_pos n)
      rw [Nat.add_zero] at hfirst
      rw [List.range'_succ, List.foldlM_cons]
      cases rest with
      | nil =>
          simp only [List.getElem?_nil, Option.map_none] at hfirst
          obtain ⟨m', wt', hrun, hm', hwt'⟩ := ih (k + 1) [] wt h (by
            intro j hj
            have := htable (j + 1) (by omega)
            rwa [← Nat.add_assoc, Nat.add_right_comm] at this) (Nat.zero_le n)
          refine ⟨m', wt', by simpa [hfirst] using hrun, hm', ?_⟩
          intro i
          rw [hwt' i]
          by_cases hi : i = k
          · simp [hi, hfirst]
          · congr 1
            apply propext
            omega
      | cons o rest =>
          simp only [List.getElem?_cons_zero, Option.map_some] at hfirst
          rw [List.flatMap_cons, List.append_assoc] at h
          obtain ⟨m₁, hdelete, h₁⟩ := word_delete_eq h
          obtain ⟨m', wt', hrun, hm', hwt'⟩ := ih (k + 1) rest (Function.update wt k none) h₁ (by
            intro j hj
            have := htable (j + 1) (by omega)
            rw [← Nat.add_assoc, Nat.add_right_comm, List.getElem?_cons_succ] at this
            rwa [Function.update_of_ne (by omega)]) (by simpa using hlength)
          refine ⟨m', wt', by simpa [hfirst, hdelete] using hrun, hm', ?_⟩
          intro i
          rw [hwt' i]
          by_cases hi : i = k
          · simp [hi]
          · rw [Function.update_of_ne hi]
            congr 1
            apply propext
            omega

/-- Memory and table hold the words of `objects`, in the order of their codes. -/
structure Filled (m : Memory Block) (wt : ℕ → Option ℕ) (objects : List Object) : Prop where
  owns : Owns m (objects.flatMap Object.cells)
  table : ∀ i < capacity, wt (i + 1) = objects[i]?.map Object.word
  stop : wt STOP_CODE = none
  first : (objects.map Object.value)[0]? = some []
  short : ∀ (i : ℕ) (o : Object), objects[i]? = some o → o.value.length ≤ i

namespace Filled

variable {wt : ℕ → Option ℕ} {objects : List Object}

theorem object (ho : o ∈ objects) : o.cells ⊆ objects.flatMap Object.cells :=
  fun _ hc => List.mem_flatMap.mpr ⟨o, ho, hc⟩

theorem length_pos (h : Filled m wt objects) : 0 < objects.length := by
  have := (List.getElem?_eq_some_iff.mp h.first).1
  rwa [List.length_map] at this

theorem single (howns : Owns m o.cells) (hword : wt (0 + 1) = some o.word)
    (hnone : ∀ i < capacity, 0 < i → wt (i + 1) = none) (hstop : wt STOP_CODE = none)
    (hvalue : o.value = []) : Filled m wt [o] where
  owns := by simpa using howns
  table := by
    intro i hi
    rcases i with - | i
    · exact hword
    · simpa using hnone (i + 1) hi (Nat.succ_pos i)
  stop := hstop
  first := by simp [hvalue]
  short := by
    intro i p hp
    obtain ⟨hi, rfl⟩ := List.getElem?_eq_some_iff.mp hp
    simp [hvalue]

/-- A new word is entered under the next code. -/
theorem enter (h : Filled m wt objects) {m' : Memory Block}
    (howns : Owns m' (o.cells ++ objects.flatMap Object.cells))
    (hshort : o.value.length ≤ objects.length) :
    Filled m' (Function.update wt (objects.length + 1) (some o.word)) (objects ++ [o]) where
  owns := by
    rw [List.flatMap_append]
    simpa using howns.perm List.perm_append_comm
  table := by
    intro i hi
    rcases Nat.lt_trichotomy i objects.length with hlt | rfl | hgt
    · rw [Function.update_of_ne (by omega), h.table i hi, List.getElem?_append_left hlt]
    · rw [Function.update_self, List.getElem?_concat_length, Option.map_some]
    · rw [Function.update_of_ne (by omega), h.table i hi, List.getElem?_eq_none (by omega),
        List.getElem?_eq_none (by simp; omega)]
  stop := by rw [Function.update_of_ne (by simp [STOP_CODE]), h.stop]
  first := by
    rw [List.map_append, List.getElem?_append_left (by simpa using h.length_pos), h.first]
  short := by
    intro i p hp
    rcases Nat.lt_or_ge i objects.length with hi | hi
    · rw [List.getElem?_append_left hi] at hp
      exact h.short i p hp
    · obtain ⟨hlt, rfl⟩ := List.getElem?_eq_some_iff.mp hp
      rw [List.getElem_append_right hi]
      simpa using hshort.trans hi

/-- `wt_reset` gives all words back but the empty one. -/
theorem reset (h : Filled m wt objects) (hlength : objects.length ≤ capacity) :
    ∃ m' wt', wt_reset m wt = some (m', wt') ∧ Filled m' wt' (objects.take 1) := by
  obtain ⟨p, rest, rfl⟩ := List.exists_cons_of_length_pos h.length_pos
  have howns : Owns m (rest.flatMap Object.cells ++ p.cells) :=
    h.owns.perm (by simpa using List.perm_append_comm)
  have htable : ∀ j < MAX_CODE - START_CODE, wt (START_CODE + j) = rest[j]?.map Object.word := by
    intro j hj
    have := h.table (j + 1) (by
      simp only [capacity, MAX_CODE, EMPTY_CODE, START_CODE] at hj ⊢
      omega)
    rwa [List.getElem?_cons_succ, Nat.add_assoc, Nat.add_comm] at this
  obtain ⟨m', wt', hrun, hm', hwt'⟩ := reset_loop _ START_CODE rest wt howns htable (by
    simp only [List.length_cons, capacity, MAX_CODE, EMPTY_CODE, START_CODE] at hlength ⊢
    omega)
  refine ⟨m', wt', hrun, single hm' ?_ ?_ ?_ ?_⟩
  · rw [hwt', if_neg (by simp [START_CODE])]
    exact h.table 0 (by decide)
  · intro i hi hpos
    rw [hwt', if_pos]
    simp only [capacity, START_CODE, MAX_CODE, EMPTY_CODE] at hi ⊢
    omega
  · rw [hwt', if_neg (by simp [START_CODE, STOP_CODE]), h.stop]
  · simpa using h.first

end Filled

/-! ## The loop -/

/-- What the words are after `next_code++`. -/
def retained (objects : List Object) : List Object :=
  if objects.length = capacity then objects.take 1 else objects

/-- The loop stands at the words of `objects`. -/
structure Stores (d : Decoder) (objects : List Object) : Prop where
  filled : Filled d.memory d.table objects
  next_code : d.next_code = objects.length + 1
  room : objects.length < capacity

namespace Stores

variable {d : Decoder} {objects : List Object}

theorem start : ∃ d objects, decoderStart = some d ∧ Stores d objects ∧
    objects.map Object.value = [[]] := by
  obtain ⟨m, o, hcreate, hvalue, howns⟩ :=
    word_create_eq Owns.empty none [] fun _ _ _ => rfl
  rw [List.append_nil] at howns
  refine ⟨⟨m, fun i => if i = EMPTY_CODE then some o.word else none, START_CODE⟩, [o], ?_,
    ⟨Filled.single howns ?_ ?_ ?_ hvalue, rfl, ?_⟩, by simp [hvalue]⟩
  · rw [decoderStart, wt_create, ← List.length_nil (α := UInt8), hcreate]
    rfl
  · rfl
  · intro i hi hpos
    have hne : i + 1 ≠ EMPTY_CODE := by
      simp only [EMPTY_CODE]
      omega
    exact if_neg hne
  · rfl
  · simp [capacity, MAX_CODE, EMPTY_CODE]

/-- `next_code++` after a new word. -/
theorem advance {m : Memory Block} {wt : ℕ → Option ℕ} {next_code : ℕ}
    (h : Filled m wt (objects ++ [o])) (hnext : next_code = objects.length + 1)
    (hroom : objects.length < capacity) :
    ∃ d, (Decoder.mk m wt next_code).advance = some d ∧ Stores d (retained (objects ++ [o])) := by
  have hlength : (objects ++ [o]).length = objects.length + 1 := by simp
  have hmod : (next_code + 1) % 2 ^ 16 = objects.length + 2 := by
    simp only [capacity, MAX_CODE, EMPTY_CODE] at hroom
    rw [hnext, Nat.mod_eq_of_lt (by omega)]
  by_cases hfull : objects.length + 1 = capacity
  · have hmax : objects.length + 2 = MAX_CODE := by
      simp only [capacity, MAX_CODE, EMPTY_CODE] at hfull ⊢
      omega
    obtain ⟨m', wt', hreset, hfilled⟩ := h.reset (by rw [hlength, hfull])
    have hone : ((objects ++ [o]).take 1).length = 1 := by simp
    refine ⟨⟨m', wt', START_CODE⟩, ?_, ?_⟩
    · simp only [Decoder.advance, hmod, hmax, if_true, hreset, Option.map_some]
    · rw [retained, hlength, if_pos hfull]
      exact ⟨hfilled, by rw [hone]; rfl, by rw [hone]; decide⟩
  · have hmax : objects.length + 2 ≠ MAX_CODE := by
      simp only [capacity, MAX_CODE, EMPTY_CODE] at hfull ⊢
      omega
    refine ⟨⟨m, wt, objects.length + 2⟩, ?_, ?_⟩
    · simp only [Decoder.advance, hmod, if_neg hmax]
    · rw [retained, hlength, if_neg hfull]
      exact ⟨h, by rw [hlength], by rw [hlength]; omega⟩

theorem retained_value (o : Object) (hfirst : (objects.map Object.value)[0]? = some []) :
    (retained (objects ++ [o])).map Object.value =
      learn capacity (objects.map Object.value) o.value := by
  cases objects with
  | nil => simp at hfirst
  | cons p objects =>
      have hp : p.value = [] := by simpa using hfirst
      unfold retained learn
      simp only [List.cons_append, List.length_cons, List.length_append, List.map_cons,
        List.length_map, List.length_nil]
      split <;> simp [hp]

/-- The loop on one pair: it has a result where the table of values has one, the same bytes,
and the words stay those of that table. -/
theorem decodePair (h : Stores d objects) {v : Lz78.Decoder}
    (hv : Knows v (objects.map Object.value)) (code : ℕ) (sym : UInt8) :
    (InMemory.decodePair d code sym = none ∧ Lz78.decodePair v code sym = none) ∨
      ∃ d' v' w objects', InMemory.decodePair d code sym = some (d', w) ∧
        Lz78.decodePair v code sym = some (v', w) ∧ Stores d' objects' ∧
        Knows v' (objects'.map Object.value) := by
  unfold InMemory.decodePair Lz78.decodePair
  by_cases hcode : code < MAX_CODE
  · rw [if_pos hcode, if_pos hcode]
    rcases code with - | i
    · exact Or.inl ⟨by rw [show d.table 0 = none from h.filled.stop]; rfl,
        by rw [show v.table 0 = none from hv.stop]; rfl⟩
    · have hi : i < capacity := by
        simp only [capacity, MAX_CODE, EMPTY_CODE] at hcode ⊢
        omega
      rw [h.filled.table i hi, hv.table i hi, List.getElem?_map]
      cases hget : objects[i]? with
      | none => exact Or.inl ⟨rfl, rfl⟩
      | some o =>
          refine Or.inr ?_
          have hlt := (List.getElem?_eq_some_iff.mp hget).1
          have hshort := h.filled.short i o hget
          have hroom := h.room
          obtain ⟨m', o', happend, hvalue, howns⟩ := word_append_sym_eq h.filled.owns
            (Filled.object (List.mem_of_getElem? hget)) (by
              simp only [capacity, MAX_CODE, EMPTY_CODE] at hi
              omega) sym
          have hread := read_eq howns (List.subset_append_left _ _)
          have hbytes : memcpy m' (some o'.syms) o'.value.length = some o'.value :=
            memcpy_eq howns (by simp [Object.cells])
          have hfilled := h.filled.enter howns (by
            rw [hvalue, List.length_append, List.length_singleton]
            omega)
          rw [← h.next_code] at hfilled
          obtain ⟨d', hadvance, hstores⟩ := advance hfilled h.next_code h.room
          refine ⟨d',
            Lz78.Decoder.advance ⟨Function.update v.table v.next_code (some o'.value), v.next_code⟩,
            o'.value, _, ?_, ?_, hstores, ?_⟩
          · simp only [Option.map_some, Option.bind_eq_bind, Option.bind_some, happend, hread,
              hbytes, hadvance, Option.pure_def]
          · rw [hvalue]
            rfl
          · rw [retained_value o' h.filled.first]
            exact hv.store h.filled.first _
  · exact Or.inl ⟨if_neg hcode, if_neg hcode⟩

theorem decodePairs (h : Stores d objects) {v : Lz78.Decoder}
    (hv : Knows v (objects.map Object.value)) (pairs : List Pair) :
    (InMemory.decodePairs d pairs = none ∧ Lz78.decodePairs v pairs = none) ∨
      ∃ d' v' text objects', InMemory.decodePairs d pairs = some (d', text) ∧
        Lz78.decodePairs v pairs = some (v', text) ∧ Stores d' objects' ∧
        Knows v' (objects'.map Object.value) := by
  induction pairs generalizing d v objects with
  | nil => exact Or.inr ⟨d, v, [], objects, rfl, rfl, h, hv⟩
  | cons pair pairs ih =>
      rw [InMemory.decodePairs, Lz78.decodePairs]
      rcases h.decodePair hv pair.code pair.sym with ⟨hd, hv'⟩ | ⟨d₁, v₁, w, os, hd, hv', h₁, k₁⟩
      · exact Or.inl ⟨by rw [hd]; rfl, by rw [hv']⟩
      · rw [hd, hv']
        rcases ih h₁ k₁ with ⟨hd', hv''⟩ | ⟨d', v', text, os', hd', hv'', h', k'⟩
        · exact Or.inl ⟨by simp [hd'], by simp [hv'']⟩
        · exact Or.inr ⟨d', v', w ++ text, os', by simp [hd'], by simp [hv''], h', k'⟩

end Stores

/-- Whatever the pairs, the loop reads and gives back only blocks in use: it is undefined
only where it looks up a code that the table does not have, and else it writes what the
table of values says. Then two blocks are in use for each code below the next one, and none
besides: `wt_reset` loses nothing. -/
theorem decode_in_memory (pairs : List Pair) :
    ∃ start, decoderStart = some start ∧
      (decodePairs start pairs).map Prod.snd =
        (Lz78.decodePairs Lz78.decoderStart pairs).map Prod.snd ∧
      ∀ d text, decodePairs start pairs = some (d, text) →
        {p | d.memory.block p ≠ none}.ncard = 2 * (d.next_code - EMPTY_CODE) ∧
        START_CODE ≤ d.next_code ∧ d.next_code < MAX_CODE := by
  obtain ⟨start, objects, hstart, hstores, hvalues⟩ := Stores.start
  have hknows : Knows Lz78.decoderStart (objects.map Object.value) := by
    rw [hvalues]
    exact Knows.start
  refine ⟨start, hstart, ?_⟩
  rcases hstores.decodePairs hknows pairs with ⟨hd, hv⟩ | ⟨d, v, text, os, hd, hv, h, -⟩
  · exact ⟨by rw [hd, hv]; rfl, by simp [hd]⟩
  · refine ⟨by rw [hd, hv]; rfl, ?_⟩
    intro d' text' hd'
    obtain ⟨rfl, -⟩ := Prod.mk.inj (Option.some.inj (hd.symm.trans hd'))
    have hpos := h.filled.length_pos
    have hroom := h.room
    have hcells : (os.flatMap Object.cells).length = 2 * os.length := by
      rw [List.length_flatMap, show (fun o => o.cells.length) = fun _ : Object => 2 from rfl]
      simp [Nat.mul_comm]
    rw [h.filled.owns.ncard, hcells, h.next_code]
    simp only [capacity, MAX_CODE, EMPTY_CODE, START_CODE] at hroom ⊢
    omega

/-- The empty word and two words more. -/
theorem decode_in_memory_two_pairs : ∃ start d text, decoderStart = some start ∧
    decodePairs start [⟨1, 97, 2⟩, ⟨2, 98, 2⟩] = some (d, text) ∧ text = [97, 97, 98] ∧
      {p | d.memory.block p ≠ none}.ncard = 6 := by
  obtain ⟨start, hstart, htext, hblocks⟩ := decode_in_memory [⟨1, 97, 2⟩, ⟨2, 98, 2⟩]
  have hvalue : (Lz78.decodePairs Lz78.decoderStart [⟨1, 97, 2⟩, ⟨2, 98, 2⟩]).map Prod.snd =
      some [97, 97, 98] := by decide
  have hnext : (decoderStart.bind fun start =>
      decodePairs start [⟨1, 97, 2⟩, ⟨2, 98, 2⟩]).map (fun out => out.1.next_code) = some 4 := by
    decide +kernel
  rw [hvalue] at htext
  obtain ⟨⟨d, text⟩, hrun, rfl⟩ := Option.map_eq_some_iff.mp htext
  rw [hstart, Option.bind_some, hrun, Option.map_some, Option.some.injEq] at hnext
  refine ⟨start, d, [97, 97, 98], hstart, hrun, rfl, ?_⟩
  rw [(hblocks d _ hrun).1, hnext]
  rfl

end FavoriteAssignments.Lz78.InMemory
