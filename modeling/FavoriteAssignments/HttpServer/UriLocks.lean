import FavoriteAssignments.HttpServer.Locks
import Mathlib.Data.List.Nodup

/-! # One lock for each URI

The table never holds a URI twice, and every worker gets the lock of its URI from it, whichever
worker has made that lock. -/

namespace FavoriteAssignments.HttpServer

open RwLock ThreadCount Transition

variable {T : Type*} [DecidableEq T] {s mid : Server T} {t : T} {p p' : Pc} {e : Event}

/-! ## What a connection has asked for and found -/

/-- The URI of a request with one of the two methods that have a lock. -/
def Event.uri : Event → Option Uri
  | .conn_get_request .GET uri | .conn_get_request .PUT uri => some uri
  | _ => none

/-- The pointer that a successful lookup gives, or the one attached after it failed. -/
def Event.hashLock : Event → Option ℕ
  | .hashLockLookup (some lock) | .attach lock _ => some lock
  | _ => none

def requested (calls : List Event) : Option Uri := calls.findSome? Event.uri

def located (calls : List Event) : Option ℕ := calls.findSome? Event.hashLock

theorem requested_append (calls : List Event) (e : Event) :
    requested (calls ++ [e]) = (requested calls).or e.uri := by
  simp [requested, List.findSome?_append]

theorem located_append (calls : List Event) (e : Event) :
    located (calls ++ [e]) = (located calls).or e.hashLock := by
  simp [located, List.findSome?_append]

/-- The local `hashLock` at the points that still use it. -/
def Pc.hashLock : Pc → Option ℕ
  | .get_unlock lock | .out_send lock _ | .out_unlock lock | .put_unlock lock _ => some lock
  | p => p.entry.map Prod.snd

/-- Before the request is read, between request and lookup, and after the lookup. -/
def Follows (calls : List Event) (p : Pc) : Prop :=
  match p with
  | .start | .parse | .dispatch => requested calls = none ∧ located calls = none
  | .put_access uri | .mutex_lock _ uri | .lookup _ uri | .create _ uri =>
      requested calls = some uri ∧ located calls = none
  | p => (∀ uri lock, p.entry = some (uri, lock) → requested calls = some uri) ∧
      ∀ lock, p.hashLock = some lock → located calls = some lock

theorem next_follows {calls : List Event} (h : next p e = some p') (hf : Follows calls p) :
    Follows (calls ++ [e]) p' := by
  cases next_cases h <;>
    simp_all [Follows, requested_append, located_append, Event.uri, Event.hashLock, Pc.entry,
      Pc.hashLock]

theorem next_uri {uri : Uri} (h : next p e = some p') (he : e.uri = some uri) : p = .dispatch := by
  cases next_cases h <;> simp_all [Event.uri]

theorem next_hashLock {lock : ℕ} (h : next p e = some p') (he : e.hashLock = some lock) :
    ∃ k uri, p' = .mutex_unlock k uri lock := by
  cases next_cases h <;> simp_all [Event.hashLock]

/-! ## The table -/

theorem hashLockLookup_eq_none {nodes : List (Uri × ℕ)} {uri : Uri} :
    hashLockLookup nodes uri = none ↔ uri ∉ nodes.map Prod.fst := by
  induction nodes with
  | nil => simp [hashLockLookup]
  | cons node nodes ih =>
      by_cases h : node.1 = uri
      · simp [hashLockLookup, h]
      · simp only [hashLockLookup, h, if_false, ih, List.map_cons, List.mem_cons, not_or]
        simp [Ne.symm h]

/-- A call leaves the table alone, or adds one node for a URI that was missing. -/
theorem step_nodes {a : Action T} {s' : Server T} (hs : Step s a s') (h : TableOk s) :
    (s'.hash.nodes = s.hash.nodes ∧ s'.fresh = s.fresh) ∨
      ∃ t k uri, s.pc t = .create k uri ∧ hashLockLookup s.hash.nodes uri = none ∧
        s'.hash.nodes = s.hash.nodes ++ [(uri, s.fresh)] ∧ s'.fresh = s.fresh + 1 := by
  cases a with
  | accept t =>
      obtain ⟨-, rfl⟩ := step_accept hs
      exact Or.inl ⟨rfl, rfl⟩
  | call t e =>
      obtain ⟨p, mid, hnext, heffect, rfl⟩ := step_call hs
      rcases effect_hash hnext heffect with ⟨k, uri, hp, -, hhash, hfresh⟩ | ⟨-, hhash, hfresh⟩
      · refine Or.inr ⟨t, k, uri, hp, h.absent t k uri hp, ?_, hfresh⟩
        rw [hhash, attach_nodes h.length]
      · exact Or.inl ⟨by rw [hhash], hfresh⟩

theorem step_nodes_kept {a : Action T} {s' : Server T} (hs : Step s a s') (h : TableOk s) :
    s.hash.nodes <+: s'.hash.nodes := by
  rcases step_nodes hs h with ⟨hnodes, -⟩ | ⟨t, k, uri, -, -, hnodes, -⟩
  · rw [hnodes]
  · rw [hnodes]
    exact List.prefix_append _ _

theorem hashLockLookup_of_kept {nodes nodes' : List (Uri × ℕ)} (h : nodes <+: nodes')
    {uri : Uri} {lock : ℕ} (hlookup : hashLockLookup nodes uri = some lock) :
    hashLockLookup nodes' uri = some lock := by
  obtain ⟨more, rfl⟩ := h
  induction nodes with
  | nil => cases hlookup
  | cons node nodes ih =>
      by_cases hu : node.1 = uri
      · simpa [hashLockLookup, hu] using hlookup
      · simp only [List.cons_append, hashLockLookup, hu, if_false] at hlookup ⊢
        exact ih hlookup

/-- One node for each URI and each lock, and every worker with the lock of its URI. -/
structure OneLock (s : Server T) : Prop where
  uris : (s.hash.nodes.map Prod.fst).Nodup
  locks : s.hash.nodes.map Prod.snd = List.range s.fresh
  follows : ∀ t, Follows (s.calls t) (s.pc t)
  agreed : ∀ t uri lock, requested (s.calls t) = some uri → located (s.calls t) = some lock →
    hashLockLookup s.hash.nodes uri = some lock

omit [DecidableEq T] in
/-- What a worker has found after one more call is the lock of its URI. -/
theorem OneLock.agreed_call {s' : Server T} (h : OneLock s) (ht' : TableOk s')
    (hkept : s.hash.nodes <+: s'.hash.nodes) (hnext : next (s.pc t) e = some p)
    (hpc : s'.pc t = p) {uri : Uri} {lock : ℕ}
    (hrequested : requested (s.calls t ++ [e]) = some uri)
    (hlocated : located (s.calls t ++ [e]) = some lock) :
    hashLockLookup s'.hash.nodes uri = some lock := by
  have hfollows := h.follows t
  cases hold : located (s.calls t) with
  | some l =>
      obtain rfl : l = lock := by simpa [located_append, hold] using hlocated
      refine hashLockLookup_of_kept hkept (h.agreed t uri l ?_ hold)
      cases huri : e.uri with
      | none => simpa [requested_append, huri] using hrequested
      | some u =>
          -- the request is read before the lookup
          rw [next_uri hnext huri] at hfollows
          simp [hfollows.2] at hold
  | none =>
      have hlock : e.hashLock = some lock := by simpa [located_append, hold] using hlocated
      obtain ⟨k, u, rfl⟩ := next_hashLock hnext hlock
      have hnew := (next_follows hnext hfollows).1 u lock rfl
      obtain rfl : u = uri := by simpa [hnew] using hrequested
      exact ht'.entry t u lock (by rw [hpc]; rfl)

theorem step_oneLock {a : Action T} {s' : Server T} (hs : Step s a s') (ht : TableOk s)
    (h : OneLock s) : OneLock s' := by
  have ht' := step_tableOk hs ht
  have hkept := step_nodes_kept hs ht
  have hnodes : (s'.hash.nodes.map Prod.fst).Nodup ∧
      s'.hash.nodes.map Prod.snd = List.range s'.fresh := by
    rcases step_nodes hs ht with ⟨hnodes, hfresh⟩ | ⟨u, k, uri, -, hnone, hnodes, hfresh⟩
    · rw [hnodes, hfresh]
      exact ⟨h.uris, h.locks⟩
    · rw [hnodes, hfresh, List.map_append, List.map_append, h.locks, List.range_succ]
      refine ⟨?_, rfl⟩
      have hnew := hashLockLookup_eq_none.mp hnone
      refine List.nodup_append.mpr ⟨h.uris, by simp, ?_⟩
      intro u hu v hv
      obtain rfl : v = uri := by simpa using hv
      rintro rfl
      exact hnew hu
  obtain ⟨huris, hlocks⟩ := hnodes
  cases a with
  | accept t =>
      obtain ⟨-, rfl⟩ := step_accept hs
      refine ⟨huris, hlocks, ?_, ?_⟩
      · intro u
        by_cases hut : u = t
        · subst hut
          simp [Follows, requested, located]
        · simpa [hut] using h.follows u
      · intro u uri lock hrequested hlocated
        by_cases hut : u = t
        · subst hut
          simp [requested] at hrequested
        · exact h.agreed u uri lock (by simpa [hut] using hrequested) (by simpa [hut] using hlocated)
  | call t e =>
      obtain ⟨p, mid, hnext, heffect, rfl⟩ := step_call hs
      refine ⟨huris, hlocks, ?_, ?_⟩
      · intro u
        by_cases hut : u = t
        · subst hut
          simpa using next_follows hnext (h.follows u)
        · simpa [hut] using h.follows u
      · intro u uri lock hrequested hlocated
        by_cases hut : u = t
        · subst hut
          exact h.agreed_call ht' hkept hnext (by simp) (by simpa using hrequested)
            (by simpa using hlocated)
        · exact hashLockLookup_of_kept hkept (h.agreed u uri lock
            (by simpa [hut] using hrequested) (by simpa [hut] using hlocated))

/-! ## Every reachable state -/

section Reachable

variable [Fintype T] {files : Uri → Bool} {ok : Server T → Action T → Prop}

theorem reaches_oneLock (h : Reaches files ok s) :
    (TableOk s ∧ LocksOk s) ∧ OneLock s := by
  refine Reachable.invariant (P := fun s => (TableOk s ∧ LocksOk s) ∧ OneLock s) h ?_ ?_
  · rintro _ rfl
    refine ⟨⟨initial_tableOk files, initial_locksOk files⟩, ?_⟩
    constructor <;> simp [initial, Follows, requested, Pc.entry, Pc.hashLock]
  · rintro s a s' ⟨⟨ht, hl⟩, hone⟩ - hs
    exact ⟨⟨step_tableOk hs ht, step_locksOk hs ht hl⟩, step_oneLock hs ht hone⟩

omit [Fintype T] [DecidableEq T] in
theorem Follows.hashLock {calls : List Event} {lock : ℕ} (h : Follows calls p)
    (hp : p.hashLock = some lock) : located calls = some lock := by
  cases p with
  | start | parse | dispatch => simp [Pc.hashLock, Pc.entry] at hp
  | put_access | mutex_lock | lookup | create => simp [Pc.hashLock, Pc.entry] at hp
  | _ => exact h.2 lock hp

omit [DecidableEq T] in
/-- A worker inside a writer lock is alone with it. -/
theorem LocksOk.alone (h : LocksOk s) {u : T} {lock : ℕ} (ht : (s.pc t).writes = some lock)
    (hu : u ≠ t) : (s.pc u).writes ≠ some lock ∧ (s.pc u).reads ≠ some lock := by
  have hwrites : (s.pc t).writesLock lock = true := by simp [Pc.writesLock, ht]
  have hpos := count_pos_of (f := Pc.writesLock lock) hwrites
  have hcount := h.writers lock
  obtain ⟨hone, hnone⟩ := h.exclusive lock
  constructor
  · intro hw
    have hwriter : (s.pc u).writesLock lock = true := by simp [Pc.writesLock, hw]
    exact hu (count_le_one (f := Pc.writesLock lock) (by omega) hwriter hwrites)
  · intro hr
    have hread := count_pos_of (f := Pc.readsLock lock)
      (show (s.pc u).readsLock lock = true by simp [Pc.readsLock, hr])
    have := h.readers lock
    have := hnone (by omega)
    omega

/-- The table holds every URI once and loses no node, workers with the same URI have the same
lock, and nobody else sends or receives a file while a `PUT` receives it. -/
theorem uri_locks_serialize (h : Reaches files Always s) :
    ((s.hash.nodes.map Prod.fst).Nodup ∧ s.hash.length = s.hash.nodes.length ∧
      (∀ lock < s.fresh, ∃ uri, (uri, lock) ∈ s.hash.nodes) ∧
      ∀ a s', Step s a s' → s.hash.nodes <+: s'.hash.nodes) ∧
    ((∀ t lock, (s.pc t).hashLock = some lock → located (s.calls t) = some lock) ∧
      ∀ t u uri lock lock', requested (s.calls t) = some uri → requested (s.calls u) = some uri →
        located (s.calls t) = some lock → located (s.calls u) = some lock' → lock = lock') ∧
    ∀ t u existed uri lock, s.pc t = .put_recv existed uri lock → u ≠ t →
      (∀ lock', s.pc u ≠ .get_send uri lock') ∧
        ∀ existed' lock', s.pc u ≠ .put_recv existed' uri lock' := by
  obtain ⟨⟨ht, hl⟩, hone⟩ := reaches_oneLock h
  refine ⟨⟨hone.uris, ht.length, ?_, fun a s' hs => step_nodes_kept hs ht⟩, ⟨?_, ?_⟩, ?_⟩
  · intro lock hlt
    have hmem : lock ∈ s.hash.nodes.map Prod.snd := by
      rw [hone.locks]
      exact List.mem_range.mpr hlt
    obtain ⟨node, hnode, rfl⟩ := List.mem_map.mp hmem
    exact ⟨node.1, hnode⟩
  · exact fun t lock hp => (hone.follows t).hashLock hp
  · intro t u uri lock lock' hrt hru hlt hlu
    have h1 := hone.agreed t uri lock hrt hlt
    have h2 := hone.agreed u uri lock' hru hlu
    exact Option.some.inj (h1.symm.trans h2)
  · intro t u existed uri lock hpc hu
    have hentry := ht.entry t uri lock (by simp [hpc, Pc.entry])
    have hwriter : (s.pc t).writes = some lock := by simp [hpc, Pc.writes]
    obtain ⟨hwrites, hreads⟩ := hl.alone hwriter hu
    have hsame : ∀ lock', (s.pc u).entry = some (uri, lock') → lock' = lock := by
      intro lock' hu'
      exact Option.some.inj ((ht.entry u uri lock' hu').symm.trans hentry)
    constructor
    · intro lock' hpu
      obtain rfl := hsame lock' (by simp [hpu, Pc.entry])
      exact hreads (by simp [hpu, Pc.reads])
    · intro existed' lock' hpu
      obtain rfl := hsame lock' (by simp [hpu, Pc.entry])
      exact hwrites (by simp [hpu, Pc.writes])

end Reachable

/-- The calls of a `GET` of `a` that finds its lock, up to its wait. -/
def getUntilWait : List Event :=
  [.conn_new, .conn_parse none, .conn_get_request .GET ['a'], .pthread_mutex_lock,
    .hashLockLookup (some 0), .pthread_mutex_unlock, .reader_arrives 0]

/-- A `PUT` of `a` that receives its file, and a `GET` of `a` that comes meanwhile. -/
def getBehindPut (putter getter : T) : List (Action T) :=
  (.accept putter :: (putUntilOpen false ++ [Event.open_write none]).map (.call putter)) ++
    (.accept getter :: getUntilWait.map (.call getter))

theorem uri_locks_serialize_waiting : ∃ s : Server (Fin 2),
    Reaches (fun _ => false) Always s ∧ s.pc 1 = .wait .get ['a'] 0 ∧
      s.pc 0 = .put_recv false ['a'] 0 ∧ ∀ lock, s.pc 1 ≠ .get_send ['a'] lock := by
  obtain ⟨s, hs, hf⟩ := reaches_run (fun _ => false) Always (getBehindPut (0 : Fin 2) 1)
    (fun s => s.pc 1 == .wait .get ['a'] 0 && s.pc 0 == .put_recv false ['a'] 0) (by decide)
  simp only [Bool.and_eq_true, beq_iff_eq] at hf
  exact ⟨s, hs, hf.1, hf.2, ((uri_locks_serialize hs).2.2 0 1 false ['a'] 0 hf.2 (by decide)).1⟩

end FavoriteAssignments.HttpServer
