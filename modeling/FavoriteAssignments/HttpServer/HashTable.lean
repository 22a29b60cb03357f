import FavoriteAssignments.HttpServer.Locks
import FavoriteAssignments.Library.LinkedLists

/-! # The hash table in the heap

`HTnode`, `attach`, `newHT`, `freeHT` and `hashLockLookup` on blocks from `malloc`, and the
critical section of the two handlers. They compute what the list of nodes does, and `freeHT`
gives back every block once. -/

namespace FavoriteAssignments.HttpServer.Heap

open LinkedLists

/-! ## The program -/

/-- What lies in a block from `malloc`. Of a lock only its block matters here. -/
inductive Block where
  | table (head : Option ℕ) (length : ℕ)
  | node (URI hashLock : ℕ) (next : Option ℕ)
  | string (s : Uri)
  | rwlock

/-- The blocks in use. Reading, writing or freeing anything else is undefined. -/
abbrev Memory := ℕ → Option Block

/-- `malloc` has returned the address `p` of a block, which is then filled. -/
def Memory.malloc (m : Memory) (p : ℕ) (block : Block) : Memory :=
  Function.update m p (some block)

def Memory.free (m : Memory) (p : ℕ) : Option Memory :=
  (m p).map fun _ => Function.update m p none

def Memory.table (m : Memory) (p : ℕ) : Option (Option ℕ × ℕ) :=
  match m p with
  | some (.table head length) => some (head, length)
  | _ => none

def Memory.node (m : Memory) (p : ℕ) : Option (ℕ × ℕ × Option ℕ) :=
  match m p with
  | some (.node URI hashLock next) => some (URI, hashLock, next)
  | _ => none

def Memory.string (m : Memory) (p : ℕ) : Option Uri :=
  match m p with
  | some (.string s) => some s
  | _ => none

/-- A request for a URI, with the addresses that `malloc` returns if it asks for blocks. -/
structure Request where
  uri : Uri
  lock : ℕ
  entry : ℕ
  copy : ℕ

def Request.blocks (r : Request) : List ℕ := [r.copy, r.lock, r.entry]

def HTnode (m : Memory) (r : Request) (hashLock : ℕ) : Memory :=
  (m.malloc r.copy (.string r.uri)).malloc r.entry (.node r.copy hashLock none)

/-- `while (this_entry->next != NULL)`. -/
def lastEntry : ℕ → Memory → ℕ → Option ℕ
  | 0, _, _ => none
  | fuel + 1, m, this_entry => do
      let (_, _, next) ← m.node this_entry
      match next with
      | none => return this_entry
      | some next => lastEntry fuel m next

def attach (fuel : ℕ) (m : Memory) (hash : ℕ) (r : Request) (hashLock : ℕ) : Option Memory := do
  let (head, length) ← m.table hash
  if length = 0 then
    let m := HTnode m r hashLock
    return m.malloc hash (.table (some r.entry) (length + 1))
  else
    let this_entry ← head
    let this_entry ← lastEntry fuel m this_entry
    let m := HTnode m r hashLock
    let (URI, lock, _) ← m.node this_entry
    let m := m.malloc this_entry (.node URI lock (some r.entry))
    return m.malloc hash (.table head (length + 1))

def newHT (m : Memory) (htInstance : ℕ) : Memory := m.malloc htInstance (.table none 0)

def freeEntries : ℕ → Memory → Option ℕ → Option Memory
  | 0, _, _ => none
  | _ + 1, m, none => some m
  | fuel + 1, m, some entry => do
      let (URI, hashLock, entry_n) ← m.node entry
      let m ← m.free URI
      let m ← m.free hashLock
      let m ← m.free entry
      freeEntries fuel m entry_n

def freeHT (fuel : ℕ) (m : Memory) (htInstance : ℕ) : Option Memory := do
  let (head, _) ← m.table htInstance
  let m ← freeEntries fuel m head
  m.free htInstance

/-- The first `none` is an undefined access, the second a null pointer. -/
def hashLockLookup : ℕ → Memory → Option ℕ → Uri → Option (Option ℕ)
  | 0, _, _, _ => none
  | _ + 1, _, none, _ => some none
  | fuel + 1, m, some entry, URI => do
      let (copy, hashLock, next) ← m.node entry
      let s ← m.string copy
      if s = URI then return some hashLock
      hashLockLookup fuel m next URI

/-- What a handler does between `pthread_mutex_lock` and `pthread_mutex_unlock`. -/
def locate (fuel : ℕ) (m : Memory) (ht : ℕ) (r : Request) : Option (Memory × ℕ) := do
  let (head, _) ← m.table ht
  match ← hashLockLookup fuel m head r.uri with
  | some hashLock => return (m, hashLock)
  | none =>
      let m := m.malloc r.lock .rwlock
      let m ← attach fuel m ht r r.lock
      return (m, r.lock)

/-- One critical section after the other, with the locks found. -/
def locateAll (fuel : ℕ) (ht : ℕ) : Memory → List Request → Option (Memory × List ℕ)
  | m, [] => some (m, [])
  | m, r :: rs => do
      let (m, lock) ← locate fuel m ht r
      let (m, locks) ← locateAll fuel ht m rs
      return (m, lock :: locks)

/-- The table from its creation to its end; `main` has the call of `freeHT` behind a loop that it
never leaves. -/
def lifecycle (fuel : ℕ) (m : Memory) (ht : ℕ) (rs : List Request) : Option (Memory × List ℕ) := do
  let (m, locks) ← locateAll fuel ht (newHT m ht) rs
  let m ← freeHT fuel m ht
  return (m, locks)

/-! ## The list of nodes -/

/-- The same critical section on the list behind the table. -/
def locateNode (hash : HashTable) (r : Request) : HashTable × ℕ :=
  match HttpServer.hashLockLookup hash.nodes r.uri with
  | some lock => (hash, lock)
  | none => (HttpServer.attach hash r.uri r.lock, r.lock)

def locateNodes : HashTable → List Request → HashTable × List ℕ
  | hash, [] => (hash, [])
  | hash, r :: rs =>
      let (hash, lock) := locateNode hash r
      let (hash, locks) := locateNodes hash rs
      (hash, lock :: locks)

/-- A request makes sure that its URI has a lock, and keeps those of the others. -/
theorem locateNode_lookup {hash : HashTable} (h : hash.length = hash.nodes.length) (r : Request) :
    (locateNode hash r).1.length = (locateNode hash r).1.nodes.length ∧
    HttpServer.hashLockLookup (locateNode hash r).1.nodes r.uri = some (locateNode hash r).2 ∧
    ∀ uri lock, HttpServer.hashLockLookup hash.nodes uri = some lock →
      HttpServer.hashLockLookup (locateNode hash r).1.nodes uri = some lock := by
  rw [locateNode]
  cases hfound : HttpServer.hashLockLookup hash.nodes r.uri with
  | some lock => exact ⟨h, hfound, fun uri lock hold => hold⟩
  | none =>
      exact ⟨attach_length h _ _, hashLockLookup_attach_self h hfound,
        fun uri lock hold => hashLockLookup_attach h hold⟩

theorem locateNodes_lookup (hash : HashTable) (h : hash.length = hash.nodes.length)
    (rs : List Request) :
    (locateNodes hash rs).2.map some =
      rs.map (fun r => HttpServer.hashLockLookup (locateNodes hash rs).1.nodes r.uri) ∧
    ∀ uri lock, HttpServer.hashLockLookup hash.nodes uri = some lock →
      HttpServer.hashLockLookup (locateNodes hash rs).1.nodes uri = some lock := by
  induction rs generalizing hash with
  | nil => exact ⟨rfl, fun uri lock hold => hold⟩
  | cons r rs ih =>
      obtain ⟨hlength, hfound, hkept⟩ := locateNode_lookup h r
      obtain ⟨hlocks, hlater⟩ := ih _ hlength
      refine ⟨?_, fun uri lock hold => hlater uri lock (hkept uri lock hold)⟩
      have hfirst := hlater r.uri _ hfound
      simp only [locateNodes, List.map_cons, hfirst, hlocks]

/-- The nodes of the heap as cells of a linked list. -/
def cells (m : Memory) : Cells ℕ (ℕ × ℕ) := fun p =>
  (m.node p).map fun (URI, hashLock, next) => ⟨(URI, hashLock), next⟩

def Request.cell (r : Request) : ℕ × ℕ × ℕ := (r.entry, r.copy, r.lock)

/-- The requests `kept` have made the nodes of the table, in this order: their blocks and that
of the table are all that is in use besides `base`. -/
structure Represents (base m : Memory) (ht : ℕ) (hash : HashTable) (kept : List Request) :
    Prop where
  table : ∃ head, m.table ht = some (head, hash.length) ∧
    Chain (cells m) head (kept.map Request.cell)
  nodes : hash.nodes = kept.map fun r => (r.uri, r.lock)
  length : hash.length = kept.length
  strings : ∀ r ∈ kept, m.string r.copy = some r.uri
  locks : ∀ r ∈ kept, m r.lock = some .rwlock
  owned : (ht :: kept.flatMap Request.blocks).Nodup
  elsewhere : ∀ p, p ∉ ht :: kept.flatMap Request.blocks → m p = base p

/-! ## Blocks -/

section Blocks

variable {m m' : Memory} {p q : ℕ} {block : Block}

@[simp] theorem malloc_same : m.malloc p block p = some block := Function.update_self ..

theorem malloc_of_ne (h : q ≠ p) : m.malloc p block q = m q := Function.update_of_ne h ..

theorem node_eq_some {URI hashLock : ℕ} {next : Option ℕ} :
    m.node p = some (URI, hashLock, next) ↔ m p = some (.node URI hashLock next) := by
  rw [Memory.node]
  split <;> simp_all

theorem string_eq_some {s : Uri} : m.string p = some s ↔ m p = some (.string s) := by
  rw [Memory.string]
  split <;> simp_all

theorem table_eq_some {head : Option ℕ} {length : ℕ} :
    m.table p = some (head, length) ↔ m p = some (.table head length) := by
  rw [Memory.table]
  split <;> simp_all

theorem cells_eq_some {URI hashLock : ℕ} {next : Option ℕ} :
    cells m p = some ⟨(URI, hashLock), next⟩ ↔ m.node p = some (URI, hashLock, next) := by
  simp [cells, Option.map_eq_some_iff]

theorem cells_congr (h : m' p = m p) : cells m' p = cells m p := by
  simp only [cells, Memory.node, h]

/-- The blocks that are left once those at `ps` are freed. -/
def Memory.without (m : Memory) (ps : List ℕ) : Memory := fun p => if p ∈ ps then none else m p

theorem without_of_notMem {ps : List ℕ} (h : p ∉ ps) : m.without ps p = m p := if_neg h

theorem without_without (ps qs : List ℕ) : (m.without ps).without qs = m.without (ps ++ qs) := by
  funext p
  by_cases hq : p ∈ qs <;> simp [Memory.without, hq]

@[simp] theorem without_nil : m.without [] = m := by
  funext p
  simp [Memory.without]

theorem free_eq (h : m p ≠ none) : m.free p = some (m.without [p]) := by
  obtain ⟨block, hblock⟩ := Option.ne_none_iff_exists'.mp h
  rw [Memory.free, hblock, Option.map_some]
  congr 1
  funext q
  by_cases hq : q = p
  · simp [Memory.without, hq]
  · simp [Memory.without, hq]

/-- Blocks in use, each freed once. -/
theorem freeAll_eq {ps : List ℕ} (hnodup : ps.Nodup) (h : ∀ p ∈ ps, m p ≠ none) :
    ps.foldlM Memory.free m = some (m.without ps) := by
  induction ps generalizing m with
  | nil => simp
  | cons p ps ih =>
      obtain ⟨hp, hps⟩ := List.nodup_cons.mp hnodup
      rw [List.foldlM_cons, free_eq (h p List.mem_cons_self), Option.bind_eq_bind,
        Option.bind_some, ih hps, without_without, List.singleton_append]
      intro q hq
      rw [without_of_notMem (by simpa using ne_of_mem_of_not_mem hq hp)]
      exact h q (List.mem_cons_of_mem _ hq)

end Blocks

section Nodes

variable {base m : Memory} {ht fuel : ℕ} {hash : HashTable} {kept front : List Request}
  {head : Option ℕ} {r : Request}

theorem mem_blocks (h : r ∈ kept) : r.copy ∈ kept.flatMap Request.blocks ∧
    r.lock ∈ kept.flatMap Request.blocks ∧ r.entry ∈ kept.flatMap Request.blocks := by
  simp only [List.mem_flatMap, Request.blocks]
  exact ⟨⟨r, h, by simp⟩, ⟨r, h, by simp⟩, ⟨r, h, by simp⟩⟩

theorem fst_cells (kept : List Request) :
    (kept.map Request.cell).map Prod.fst = kept.map Request.entry := by
  rw [List.map_map]
  rfl

/-! ## Looking up -/

theorem hashLockLookup_eq (hchain : Chain (cells m) head (kept.map Request.cell))
    (hstrings : ∀ r ∈ kept, m.string r.copy = some r.uri) (hfuel : kept.length < fuel)
    (uri : Uri) : hashLockLookup fuel m head uri =
      some (HttpServer.hashLockLookup (kept.map fun r => (r.uri, r.lock)) uri) := by
  induction kept generalizing fuel head with
  | nil =>
      obtain ⟨fuel, rfl⟩ : ∃ f, fuel = f + 1 := ⟨fuel - 1, by simp at hfuel; omega⟩
      obtain rfl := chain_nil.mp hchain
      rfl
  | cons r kept ih =>
      obtain ⟨fuel, rfl⟩ : ∃ f, fuel = f + 1 := ⟨fuel - 1, by omega⟩
      obtain ⟨rfl, next, hcell, hrest⟩ := hchain
      have hnode := cells_eq_some.mp hcell
      have hstring := hstrings r List.mem_cons_self
      have hlater := ih hrest (fun r' hr' => hstrings r' (List.mem_cons_of_mem _ hr'))
        (by simpa using hfuel)
      simp only [hashLockLookup, Option.bind_eq_bind]
      rw [hnode, Option.bind_some, hstring, Option.bind_some]
      by_cases huri : r.uri = uri
      · simp [huri, HttpServer.hashLockLookup]
      · simp [huri, HttpServer.hashLockLookup, hlater]

theorem lastEntry_eq (hchain : Chain (cells m) head ((front ++ [r]).map Request.cell))
    (hfuel : front.length < fuel) : head.bind (lastEntry fuel m) = some r.entry := by
  induction front generalizing fuel head with
  | nil =>
      obtain ⟨fuel, rfl⟩ : ∃ f, fuel = f + 1 := ⟨fuel - 1, by simp at hfuel; omega⟩
      obtain ⟨rfl, next, hcell, rfl⟩ := hchain
      have hnode := cells_eq_some.mp hcell
      simp only [lastEntry, Option.bind_eq_bind, Option.bind_some]
      rw [hnode]
      rfl
  | cons first front ih =>
      obtain ⟨fuel, rfl⟩ : ∃ f, fuel = f + 1 := ⟨fuel - 1, by omega⟩
      obtain ⟨rfl, next, hcell, hrest⟩ := hchain
      have hnode := cells_eq_some.mp hcell
      have hlater := ih hrest (by simpa using hfuel)
      simp only [lastEntry, Option.bind_eq_bind, Option.bind_some]
      rw [hnode, Option.bind_some]
      cases next with
      | none => cases hlater
      | some next => exact hlater

/-! ## A new node -/

theorem Represents.entry (h : Represents base m ht hash kept) (hr : r ∈ kept) :
    ∃ next, m r.entry = some (.node r.copy r.lock next) := by
  obtain ⟨head, -, hchain⟩ := h.table
  obtain ⟨next, hcell⟩ := hchain.cell (List.mem_map_of_mem hr)
  exact ⟨next, node_eq_some.mp (cells_eq_some.mp hcell)⟩

/-- The blocks of a new node are not those of the table. -/
structure Apart (ht : ℕ) (kept : List Request) (r : Request) : Prop where
  table : ht ∉ r.blocks
  table_kept : ht ∉ kept.flatMap Request.blocks
  kept : ∀ p ∈ kept.flatMap Request.blocks, p ∉ r.blocks
  blocks : r.blocks.Nodup

theorem apart_of_nodup (h : (ht :: (kept ++ [r]).flatMap Request.blocks).Nodup) :
    Apart ht kept r := by
  simp only [List.flatMap_append, List.flatMap_cons, List.flatMap_nil, List.append_nil,
    List.nodup_cons, List.nodup_append, List.mem_append, not_or] at h
  exact ⟨h.1.2, h.1.1, fun p hp hr => h.2.2.2 p hp p hr rfl, h.2.2.1⟩

/-- What it takes to represent one node more. -/
theorem Represents.snoc {m' : Memory} {head' : Option ℕ} (h : Represents base m ht hash kept)
    (howned : (ht :: (kept ++ [r]).flatMap Request.blocks).Nodup)
    (hcopy : m' r.copy = some (.string r.uri)) (hlock : m' r.lock = some .rwlock)
    (htable : m' ht = some (.table head' (hash.length + 1)))
    (hchain : Chain (cells m') head' ((kept ++ [r]).map Request.cell))
    (hkeep : ∀ p, p ≠ ht → p ∉ r.blocks → (∀ l ∈ kept, p ≠ l.entry) → m' p = m p) :
    Represents base m' ht (HttpServer.attach hash r.uri r.lock) (kept ++ [r]) := by
  have hapart := apart_of_nodup howned
  have hnodes : hash.length = hash.nodes.length := by rw [h.nodes, List.length_map, h.length]
  have hsame : ∀ p ∈ kept.flatMap Request.blocks, (∀ l ∈ kept, p ≠ l.entry) → m' p = m p :=
    fun p hp hentry => hkeep p (ne_of_mem_of_not_mem hp hapart.table_kept) (hapart.kept p hp) hentry
  refine ⟨⟨head', table_eq_some.mpr htable, hchain⟩, ?_, ?_, ?_, ?_, howned, ?_⟩
  · rw [attach_nodes hnodes, List.map_append, h.nodes]
    rfl
  · rw [List.length_append, ← h.length]
    rfl
  · intro r' hr'
    rcases List.mem_append.mp hr' with hr' | hr'
    · have hstring := h.strings r' hr'
      rw [Memory.string, hsame _ (mem_blocks hr').1]
      · exact hstring
      · rintro l hl heq
        obtain ⟨next, hnode⟩ := h.entry hl
        rw [string_eq_some, heq, hnode] at hstring
        cases hstring
    · obtain rfl := List.mem_singleton.mp hr'
      exact string_eq_some.mpr hcopy
  · intro r' hr'
    rcases List.mem_append.mp hr' with hr' | hr'
    · have hold := h.locks r' hr'
      rw [hsame _ (mem_blocks hr').2.1]
      · exact hold
      · rintro l hl heq
        obtain ⟨next, hnode⟩ := h.entry hl
        rw [heq, hnode] at hold
        cases hold
    · obtain rfl := List.mem_singleton.mp hr'
      exact hlock
  · intro p hp
    simp only [List.flatMap_append, List.flatMap_cons, List.flatMap_nil, List.append_nil,
      List.mem_cons, List.mem_append, not_or] at hp
    rw [hkeep p hp.1 hp.2.2 fun l hl => (ne_of_mem_of_not_mem (mem_blocks hl).2.2 hp.2.1).symm]
    exact h.elsewhere p (by simp [hp.1, hp.2.1])

/-- The blocks of a new node. -/
theorem HTnode_apply (hblocks : r.blocks.Nodup) :
    HTnode (m.malloc r.lock .rwlock) r r.lock r.copy = some (.string r.uri) ∧
    HTnode (m.malloc r.lock .rwlock) r r.lock r.lock = some .rwlock ∧
    HTnode (m.malloc r.lock .rwlock) r r.lock r.entry = some (.node r.copy r.lock none) ∧
    ∀ p, p ∉ r.blocks → HTnode (m.malloc r.lock .rwlock) r r.lock p = m p := by
  simp only [Request.blocks, List.nodup_cons, List.mem_cons, List.not_mem_nil, or_false, not_or,
    List.nodup_nil, and_true, not_false_eq_true] at hblocks
  obtain ⟨⟨hcl, hce⟩, hle⟩ := hblocks
  refine ⟨?_, ?_, ?_, fun p hp => ?_⟩
  · rw [HTnode, malloc_of_ne hce, malloc_same]
  · rw [HTnode, malloc_of_ne hle, malloc_of_ne (Ne.symm hcl), malloc_same]
  · rw [HTnode, malloc_same]
  · simp only [Request.blocks, List.mem_cons, List.not_mem_nil, or_false, not_or] at hp
    rw [HTnode, malloc_of_ne hp.2.2, malloc_of_ne hp.1, malloc_of_ne hp.2.1]

/-- The first node. -/
theorem attach_first (h : Represents base m ht hash [])
    (howned : (ht :: r.blocks).Nodup) :
    ∃ m', attach fuel (m.malloc r.lock .rwlock) ht r r.lock = some m' ∧
      Represents base m' ht (HttpServer.attach hash r.uri r.lock) [r] := by
  obtain ⟨hout, hblocks⟩ := List.nodup_cons.mp howned
  obtain ⟨hcopy, hlock, hentry, hkeep⟩ := HTnode_apply (m := m) hblocks
  obtain ⟨head, htable, hchain⟩ := h.table
  have hht : (m.malloc r.lock .rwlock).table ht = some (head, hash.length) := by
    rw [Memory.table, malloc_of_ne (fun heq => hout (by simp [heq, Request.blocks]))]
    exact htable
  have hlength : hash.length = 0 := h.length
  refine ⟨(HTnode (m.malloc r.lock .rwlock) r r.lock).malloc ht
    (.table (some r.entry) (hash.length + 1)), ?_, ?_⟩
  · simp only [attach, hht, hlength, Option.bind_eq_bind, Option.bind_some, if_true]
    rfl
  · have hblock : ∀ p ∈ r.blocks, p ≠ ht := fun p hp => ne_of_mem_of_not_mem hp hout
    refine h.snoc (by simpa using howned) ?_ ?_ malloc_same ?_ ?_
    · rw [malloc_of_ne (hblock _ (by simp [Request.blocks])), hcopy]
    · rw [malloc_of_ne (hblock _ (by simp [Request.blocks])), hlock]
    · refine ⟨rfl, none, cells_eq_some.mpr (node_eq_some.mpr ?_), rfl⟩
      rw [malloc_of_ne (hblock _ (by simp [Request.blocks])), hentry]
    · intro p hp hr _
      rw [malloc_of_ne hp, hkeep p hr]

/-- A further node, to which the last one so far then points. -/
theorem attach_next {l : Request} (h : Represents base m ht hash (front ++ [l]))
    (howned : (ht :: (front ++ [l] ++ [r]).flatMap Request.blocks).Nodup)
    (hfuel : front.length < fuel) :
    ∃ m', attach fuel (m.malloc r.lock .rwlock) ht r r.lock = some m' ∧
      Represents base m' ht (HttpServer.attach hash r.uri r.lock) (front ++ [l] ++ [r]) := by
  have hapart := apart_of_nodup howned
  obtain ⟨hcopy, hlock, hentry, hkeep⟩ := HTnode_apply (m := m) hapart.blocks
  obtain ⟨head, htable, hchain⟩ := h.table
  obtain ⟨next, hlast⟩ := h.entry (r := l) (by simp)
  have hht : (m.malloc r.lock .rwlock).table ht = some (head, hash.length) := by
    rw [Memory.table, malloc_of_ne (fun heq => hapart.table (by simp [heq, Request.blocks]))]
    exact htable
  have hlength : hash.length ≠ 0 := by simp [h.length]
  have hkept : ∀ l' ∈ front ++ [l], l'.entry ∉ r.blocks ∧ l'.entry ≠ ht := fun l' hl' =>
    ⟨hapart.kept _ (mem_blocks hl').2.2, ne_of_mem_of_not_mem (mem_blocks hl').2.2
      hapart.table_kept⟩
  have hl := hkept l (by simp)
  have hwalk : head.bind (lastEntry fuel (m.malloc r.lock .rwlock)) = some l.entry := by
    refine lastEntry_eq (hchain.congr fun p hp => cells_congr (malloc_of_ne ?_)) hfuel
    obtain ⟨l', hl', rfl⟩ := List.mem_map.mp (fst_cells _ ▸ hp)
    exact fun heq => (hkept l' hl').1 (by simp [Request.blocks, heq])
  have hnode : (HTnode (m.malloc r.lock .rwlock) r r.lock).node l.entry =
      some (l.copy, l.lock, next) := by
    rw [node_eq_some, hkeep _ hl.1, hlast]
  have hother : ∀ p, p ≠ ht → p ≠ l.entry →
      ((HTnode (m.malloc r.lock .rwlock) r r.lock).malloc l.entry
        (.node l.copy l.lock (some r.entry))).malloc ht (.table head (hash.length + 1)) p =
      HTnode (m.malloc r.lock .rwlock) r r.lock p := fun p hp hpl => by
    rw [malloc_of_ne hp, malloc_of_ne hpl]
  have hnew : ∀ p ∈ r.blocks, p ≠ ht ∧ p ≠ l.entry := fun p hp =>
    ⟨ne_of_mem_of_not_mem hp hapart.table, ne_of_mem_of_not_mem hp hl.1⟩
  have hrcopy := hnew r.copy (by simp [Request.blocks])
  have hrlock := hnew r.lock (by simp [Request.blocks])
  have hrentry := hnew r.entry (by simp [Request.blocks])
  refine ⟨_, ?_, h.snoc howned ((hother _ hrcopy.1 hrcopy.2).trans hcopy)
    ((hother _ hrlock.1 hrlock.2).trans hlock) malloc_same ?_ ?_⟩
  · obtain ⟨first, rfl, hfirst⟩ := Option.bind_eq_some_iff.mp hwalk
    simp only [attach, hht, hlength, if_false, Option.bind_eq_bind, Option.bind_some, hfirst,
      hnode]
    rfl
  · simp only [List.map_append, List.map_cons, List.map_nil] at hchain ⊢
    refine hchain.append
      (cells_eq_some.mpr (node_eq_some.mpr ((hother _ hrentry.1 hrentry.2).trans hentry)))
      (cells_eq_some.mpr (node_eq_some.mpr ?_)) fun p hp => cells_congr ?_
    · rw [malloc_of_ne hl.2, malloc_same]
    · obtain ⟨l', hl', rfl⟩ := List.mem_map.mp (fst_cells _ ▸ hp)
      have hout := hkept l' (List.mem_append_left _ hl')
      -- a list that ends has no cell twice
      have hnodup := hchain.nodup
      rw [List.map_append, fst_cells, List.nodup_append] at hnodup
      have hne := hnodup.2.2 _ (List.mem_map_of_mem hl') l.entry (by simp [Request.cell])
      rw [hother _ hout.2 hne, hkeep _ hout.1]
  · intro p hp hr hentries
    rw [hother p hp (hentries l (by simp)), hkeep p hr]

/-- The last node of the table, if there is one, now points to the new one. -/
theorem attach_yields (h : Represents base m ht hash kept)
    (howned : (ht :: (kept ++ [r]).flatMap Request.blocks).Nodup) (hfuel : kept.length ≤ fuel) :
    ∃ m', attach fuel (m.malloc r.lock .rwlock) ht r r.lock = some m' ∧
      Represents base m' ht (HttpServer.attach hash r.uri r.lock) (kept ++ [r]) := by
  rcases List.eq_nil_or_concat' kept with rfl | ⟨front, l, rfl⟩
  · exact attach_first h (by simpa using howned)
  · exact attach_next h howned (by simpa [Nat.succ_le_iff] using hfuel)

/-! ## The end of the table -/

theorem freeEntries_eq (hchain : Chain (cells m) head (kept.map Request.cell))
    (hstrings : ∀ r ∈ kept, m.string r.copy = some r.uri)
    (hlocks : ∀ r ∈ kept, m r.lock = some .rwlock)
    (hnodup : (kept.flatMap Request.blocks).Nodup) (hfuel : kept.length < fuel) :
    freeEntries fuel m head = some (m.without (kept.flatMap Request.blocks)) := by
  induction kept generalizing fuel head m with
  | nil =>
      obtain ⟨fuel, rfl⟩ : ∃ f, fuel = f + 1 := ⟨fuel - 1, by simp at hfuel; omega⟩
      obtain rfl := chain_nil.mp hchain
      simp [freeEntries]
  | cons r kept ih =>
      obtain ⟨fuel, rfl⟩ : ∃ f, fuel = f + 1 := ⟨fuel - 1, by omega⟩
      obtain ⟨rfl, next, hcell, hrest⟩ := hchain
      have hnode := cells_eq_some.mp hcell
      rw [List.flatMap_cons, List.nodup_append] at hnodup
      obtain ⟨hblocks, hkept, hapart⟩ := hnodup
      have hused : ∀ p ∈ r.blocks, m p ≠ none := by
        simp [Request.blocks, string_eq_some.mp (hstrings r List.mem_cons_self),
          hlocks r List.mem_cons_self, node_eq_some.mp hnode]
      have hfree := freeAll_eq hblocks hused
      have hkeep : ∀ p ∈ kept.flatMap Request.blocks, m.without r.blocks p = m p := fun p hp =>
        without_of_notMem fun hmem => hapart p hmem p hp rfl
      have hlater : freeEntries fuel (m.without r.blocks) next =
          some ((m.without r.blocks).without (kept.flatMap Request.blocks)) := by
        refine ih (hrest.congr fun p hp => cells_congr (hkeep p ?_)) (fun r' hr' => ?_)
          (fun r' hr' => ?_) hkept (by simpa using hfuel)
        · obtain ⟨r', hr', rfl⟩ := List.mem_map.mp (fst_cells _ ▸ hp)
          exact (mem_blocks hr').2.2
        · rw [Memory.string, hkeep _ (mem_blocks hr').1]
          exact hstrings r' (List.mem_cons_of_mem _ hr')
        · rw [hkeep _ (mem_blocks hr').2.1]
          exact hlocks r' (List.mem_cons_of_mem _ hr')
      have hsplit : freeEntries (fuel + 1) m (some r.entry) =
          (r.blocks.foldlM Memory.free m).bind fun m => freeEntries fuel m next := by
        simp only [freeEntries, hnode, Request.blocks, List.foldlM_cons, List.foldlM_nil,
          Option.bind_eq_bind, Option.bind_some, Option.bind_assoc, Option.pure_def]
      rw [List.flatMap_cons, ← without_without, ← hlater]
      exact hsplit.trans (by rw [hfree, Option.bind_some])

/-! ## One critical section -/

/-- The requests that have made a node once `r` has been served. -/
def keep (hash : HashTable) (kept : List Request) (r : Request) : List Request :=
  if HttpServer.hashLockLookup hash.nodes r.uri = none then kept ++ [r] else kept

theorem locate_simulates (h : Represents base m ht hash kept)
    (howned : (ht :: (kept ++ [r]).flatMap Request.blocks).Nodup) (hfuel : kept.length < fuel) :
    ∃ m', locate fuel m ht r = some (m', (locateNode hash r).2) ∧
      Represents base m' ht (locateNode hash r).1 (keep hash kept r) := by
  obtain ⟨head, htable, hchain⟩ := h.table
  have hlookup := hashLockLookup_eq hchain h.strings hfuel r.uri
  rw [← h.nodes] at hlookup
  rw [locateNode, keep, locate, htable]
  simp only [Option.bind_eq_bind, Option.bind_some, hlookup]
  cases hfound : HttpServer.hashLockLookup hash.nodes r.uri with
  | some lock => exact ⟨m, rfl, h⟩
  | none =>
      obtain ⟨m', hattach, h'⟩ := attach_yields h howned hfuel.le
      exact ⟨m', by simp [hattach], h'⟩

/-- Whatever has been asked for so far, the heap holds the list that the same requests make. -/
theorem locateAll_simulates (rs : List Request) (h : Represents base m ht hash kept)
    (howned : (ht :: (kept ++ rs).flatMap Request.blocks).Nodup)
    (hfuel : kept.length + rs.length ≤ fuel) :
    ∃ m' kept', locateAll fuel ht m rs = some (m', (locateNodes hash rs).2) ∧
      Represents base m' ht (locateNodes hash rs).1 kept' ∧ kept'.Sublist (kept ++ rs) := by
  induction rs generalizing m hash kept with
  | nil => exact ⟨m, kept, rfl, h, by simp⟩
  | cons r rs ih =>
      have hsplit : kept ++ r :: rs = kept ++ [r] ++ rs := by simp
      rw [hsplit] at howned ⊢
      rw [List.length_cons] at hfuel
      have hroom : kept.length < fuel := by omega
      obtain ⟨m', hlocate, h'⟩ := locate_simulates (r := r) h
        (howned.sublist (by simp [List.flatMap_append])) hroom
      have hkeep : (keep hash kept r).Sublist (kept ++ [r]) := by
        rw [keep]
        split <;> simp
      obtain ⟨m'', kept'', hall, h'', hsub⟩ := ih h'
        (howned.sublist (List.Sublist.cons_cons _ ((hkeep.append_right _).flatMap _)))
        (by have := hkeep.length_le; simp at this; omega)
      refine ⟨m'', kept'', ?_, h'', hsub.trans (hkeep.append_right _)⟩
      rw [locateAll, hlocate]
      simp only [Option.bind_eq_bind, Option.bind_some, hall]
      rfl

end Nodes

/-! ## From `newHT` to `freeHT` -/

theorem newHT_represents (m : Memory) (ht : ℕ) :
    Represents m (newHT m ht) ht ⟨[], 0⟩ [] where
  table := ⟨none, table_eq_some.mpr malloc_same, rfl⟩
  nodes := rfl
  length := rfl
  strings := by simp
  locks := by simp
  owned := by simp
  elsewhere p hp := malloc_of_ne (by simpa using hp)

theorem Represents.locks_inj {base m : Memory} {ht : ℕ} {hash : HashTable} {kept : List Request}
    {uri uri' : Uri} {lock : ℕ} (h : Represents base m ht hash kept)
    (hlookup : HttpServer.hashLockLookup hash.nodes uri = some lock)
    (hlookup' : HttpServer.hashLockLookup hash.nodes uri' = some lock) : uri = uri' := by
  have hlocks : (kept.map Request.lock).Nodup := by
    refine ((List.nodup_cons.mp h.owned).2).sublist ?_
    rw [← List.flatMap_pure_eq_map]
    exact List.Sublist.flatMap_right _ fun r _ => by simp [Request.blocks]
  have hsnd : (hash.nodes.map Prod.snd).Nodup := by
    rw [h.nodes, List.map_map]
    exact hlocks
  exact congrArg Prod.fst (List.inj_on_of_nodup_map hsnd (hashLockLookup_mem hlookup)
    (hashLockLookup_mem hlookup') rfl)

/-- The table on the heap gives every request the lock that the list of nodes gives it, one for
each URI, and leaves the heap as it found it: every block is freed, once, and none is used
after that. -/
theorem lifecycle_restores (m : Memory) (ht : ℕ) (rs : List Request) (fuel : ℕ)
    (hunused : ∀ p ∈ ht :: rs.flatMap Request.blocks, m p = none)
    (hnodup : (ht :: rs.flatMap Request.blocks).Nodup) (hfuel : rs.length < fuel) :
    lifecycle fuel m ht rs = some (m, (locateNodes ⟨[], 0⟩ rs).2) ∧
    ∃ lock : Uri → ℕ, (locateNodes ⟨[], 0⟩ rs).2 = rs.map (fun r => lock r.uri) ∧
      Set.InjOn lock {uri | uri ∈ rs.map Request.uri} := by
  have hroom : ([] : List Request).length + rs.length ≤ fuel := by simp; omega
  obtain ⟨m', kept, hall, h, hsub⟩ :=
    locateAll_simulates rs (newHT_represents m ht) hnodup hroom
  constructor
  · obtain ⟨head, htable, hchain⟩ := h.table
    have howned := List.nodup_cons.mp h.owned
    have hentries := freeEntries_eq hchain h.strings h.locks howned.2
      (hsub.length_le.trans_lt (by simpa using hfuel))
    have hht : m'.without (kept.flatMap Request.blocks) ht ≠ none := by
      rw [without_of_notMem howned.1, table_eq_some.mp htable]
      simp
    have hrestored : (m'.without (kept.flatMap Request.blocks)).without [ht] = m := by
      funext p
      by_cases hp : p ∈ ht :: kept.flatMap Request.blocks
      · rw [without_without, Memory.without, if_pos (by simpa [or_comm] using hp)]
        exact (hunused p
          (List.Sublist.mem hp (List.Sublist.cons_cons _ (hsub.flatMap _)))).symm
      · rw [without_without, without_of_notMem (by simpa [or_comm] using hp), h.elsewhere p hp]
    rw [lifecycle, hall]
    simp only [Option.bind_eq_bind, Option.bind_some, freeHT, htable, hentries, free_eq hht,
      hrestored, Option.pure_def]
  · have hlocks := (locateNodes_lookup ⟨[], 0⟩ rfl rs).1
    let lock (uri : Uri) : ℕ :=
      (HttpServer.hashLockLookup (locateNodes ⟨[], 0⟩ rs).1.nodes uri).getD 0
    have hfound : ∀ uri ∈ rs.map Request.uri,
        HttpServer.hashLockLookup (locateNodes ⟨[], 0⟩ rs).1.nodes uri = some (lock uri) := by
      intro uri huri
      obtain ⟨r, hr, rfl⟩ := List.mem_map.mp huri
      have hmem := List.mem_map_of_mem (f := fun r =>
        HttpServer.hashLockLookup (locateNodes ⟨[], 0⟩ rs).1.nodes r.uri) hr
      rw [← hlocks] at hmem
      obtain ⟨l, -, hl⟩ := List.mem_map.mp hmem
      simp only [lock, ← hl, Option.getD_some]
    refine ⟨lock, ?_, fun uri huri uri' huri' heq => ?_⟩
    · have hinj : Function.Injective (Option.some (α := ℕ)) := Option.some_injective ℕ
      refine List.map_injective_iff.mpr hinj ?_
      rw [hlocks, List.map_map]
      exact List.map_congr_left fun r hr => hfound r.uri (List.mem_map_of_mem hr)
    · exact h.locks_inj (hfound uri huri) (heq ▸ hfound uri' huri')

theorem lifecycle_restores_three :
    lifecycle 10 (fun _ => none) 0 [⟨['a'], 1, 2, 3⟩, ⟨['b'], 4, 5, 6⟩, ⟨['a'], 7, 8, 9⟩] =
      some (fun _ => none,
        (locateNodes ⟨[], 0⟩ [⟨['a'], 1, 2, 3⟩, ⟨['b'], 4, 5, 6⟩, ⟨['a'], 7, 8, 9⟩]).2) :=
  (lifecycle_restores (fun _ => none) 0 _ 10 (fun _ _ => rfl) (by decide) (by decide)).1

end FavoriteAssignments.HttpServer.Heap
