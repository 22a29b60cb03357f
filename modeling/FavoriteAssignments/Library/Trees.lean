import Mathlib.Data.List.Infix
import Mathlib.Data.List.Nodup
import Mathlib.Data.List.Perm.Subperm

/-! # Trees in a memory

A node of a tree is named by the keys that lead to it from the root. `release` gives the
nodes back from the leaves up, and has no result where it would look at a node that has been
given back. -/

namespace FavoriteAssignments.Trees

variable {P K : Type*}

/-! ## The traversal -/

section Release

variable [DecidableEq P]

/-- What hangs below `p`, one key after the other. -/
def releaseKeys (visit : List P → P → Option (List P)) (child : P → K → Option P) (p : P) :
    List K → List P → Option (List P)
  | [], freed => some freed
  | k :: ks, freed =>
      if p ∈ freed then none
      else
        (match child p k with
          | some q => visit freed q
          | none => some freed).bind (releaseKeys visit child p ks)

/-- Everything below `p`, and then `p`. -/
def release (child : P → K → Option P) (keys : List K) : ℕ → List P → P → Option (List P)
  | 0, _, _ => none
  | fuel + 1, freed, p =>
      (releaseKeys (release child keys fuel) child p keys freed).bind fun freed =>
        if p ∈ freed then none else some (freed ++ [p])

end Release

/-! ## Trees -/

/-- `node w p`: the node `p` stands at the end of `w`. -/
structure Tree (child : P → K → Option P) (node : List K → P → Prop) : Prop where
  word : ∀ v w p, node v p → node w p → v = w
  pointer : ∀ w p q, node w p → node w q → p = q
  closed : ∀ w k q, node (w ++ [k]) q → ∃ p, node w p
  child_iff : ∀ w p k q, node w p → (child p k = some q ↔ node (w ++ [k]) q)

/-- `out` are the nodes below one of `ws`, each once. -/
structure Below (node : List K → P → Prop) (ws : List (List K)) (out : List P) : Prop where
  nodup : out.Nodup
  mem_iff : ∀ q, q ∈ out ↔ ∃ w ∈ ws, ∃ v, node v q ∧ w <+: v

theorem not_concat_prefix {w : List K} {k : K} : ¬ w ++ [k] <+: w := by
  intro h
  have := h.length_le
  rw [List.length_append, List.length_singleton] at this
  omega

/-- Two keys lead to different subtrees. -/
theorem apart {v w : List K} {k k' : K} (hk : k ≠ k') (h : w ++ [k] <+: v) :
    ¬ w ++ [k'] <+: v := by
  intro h'
  have hlength : (w ++ [k]).length = (w ++ [k']).length := by simp
  have := (List.prefix_of_prefix_length_le h h' hlength.le).eq_of_length hlength
  exact hk (by simpa using this)

namespace Tree

variable {child : P → K → Option P} {node : List K → P → Prop} {v w : List K} {p q : P} {k : K}

/-- The tree has a node at every prefix of a node's word. -/
theorem of_prefix (h : Tree child node) (hv : node v q) (hw : w <+: v) : ∃ p, node w p := by
  induction v using List.reverseRecOn generalizing q with
  | nil =>
      obtain rfl := List.prefix_nil.mp hw
      exact ⟨q, hv⟩
  | append_singleton v k ih =>
      rcases List.prefix_concat_iff.mp hw with rfl | hw
      · exact ⟨q, hv⟩
      · obtain ⟨p, hp⟩ := h.closed v k q hv
        exact ih hp hw

theorem below_nil (node : List K → P → Prop) : Below node [] [] := ⟨List.nodup_nil, by simp⟩

/-- Without a child there is nothing below a key. -/
theorem below_none (h : Tree child node) (hp : node w p) (hchild : child p k = none) :
    Below node [w ++ [k]] [] := by
  refine ⟨List.nodup_nil, ?_⟩
  intro q
  simp only [List.not_mem_nil, List.mem_singleton, exists_eq_left, false_iff]
  rintro ⟨v, hv, hwv⟩
  obtain ⟨r, hr⟩ := h.of_prefix hv hwv
  have := (h.child_iff w p k r hp).mpr hr
  rw [hchild] at this
  cases this

theorem below_append (h : Tree child node) {us ws : List (List K)} {front back : List P}
    (hfront : Below node us front) (hback : Below node ws back)
    (hapart : ∀ u ∈ us, ∀ w ∈ ws, ∀ v, u <+: v → ¬ w <+: v) :
    Below node (us ++ ws) (front ++ back) := by
  constructor
  · refine List.nodup_append.mpr ⟨hfront.nodup, hback.nodup, ?_⟩
    rintro q hq _ hq' rfl
    obtain ⟨u, hu, v, hv, huv⟩ := (hfront.mem_iff q).mp hq
    obtain ⟨w, hw, v', hv', hwv⟩ := (hback.mem_iff q).mp hq'
    obtain rfl := h.word v v' q hv hv'
    exact hapart u hu w hw v huv hwv
  · intro q
    simp only [List.mem_append, hfront.mem_iff, hback.mem_iff, or_and_right, exists_or]

/-- A node is not below its own keys. -/
theorem not_mem_below (h : Tree child node) (hp : node w p) (ks : List K) {out : List P}
    (hout : Below node (ks.map fun k => w ++ [k]) out) : p ∉ out := by
  intro hin
  obtain ⟨_, hmap, v, hv, hwv⟩ := (hout.mem_iff p).mp hin
  obtain ⟨k, -, rfl⟩ := List.mem_map.mp hmap
  obtain rfl := h.word v w p hv hp
  exact not_concat_prefix hwv

/-- What is below a node's keys, and the node. -/
theorem below_concat (h : Tree child node) (hp : node w p) {keys : List K}
    (hall : ∀ k, k ∈ keys) {out : List P} (hout : Below node (keys.map fun k => w ++ [k]) out) :
    Below node [w] (out ++ [p]) := by
  constructor
  · refine List.nodup_append.mpr ⟨hout.nodup, by simp, ?_⟩
    rintro q hq _ hlast rfl
    rw [List.mem_singleton.mp hlast] at hq
    exact h.not_mem_below hp keys hout hq
  · intro q
    rw [List.mem_append, hout.mem_iff, List.mem_singleton]
    simp only [List.mem_map, List.mem_singleton, exists_eq_left]
    constructor
    · rintro (⟨_, ⟨k, -, rfl⟩, v, hv, hwv⟩ | rfl)
      · exact ⟨v, hv, (List.prefix_append w [k]).trans hwv⟩
      · exact ⟨w, hp, List.prefix_refl w⟩
    · rintro ⟨v, hv, rest, rfl⟩
      cases rest with
      | nil =>
          rw [List.append_nil] at hv
          exact Or.inr (h.pointer w q p hv hp)
      | cons k rest => exact Or.inl ⟨w ++ [k], ⟨k, hall k, rfl⟩, _, hv, rest, by simp⟩

variable [DecidableEq P]

/-- If each visit gives back what is below a child, the loop gives back what is below the
keys. -/
theorem releaseKeys_eq (h : Tree child node) (hp : node w p)
    (visit : List P → P → Option (List P))
    (hvisit : ∀ k q freed, node (w ++ [k]) q →
      (∀ v r, node v r → w ++ [k] <+: v → r ∉ freed) →
      ∃ out, visit freed q = some (freed ++ out) ∧ Below node [w ++ [k]] out)
    {ks : List K} (hks : ks.Nodup) {freed : List P} (hpfreed : p ∉ freed)
    (hfreed : ∀ k ∈ ks, ∀ v r, node v r → w ++ [k] <+: v → r ∉ freed) :
    ∃ out, releaseKeys visit child p ks freed = some (freed ++ out) ∧
      Below node (ks.map fun k => w ++ [k]) out := by
  induction ks generalizing freed with
  | nil => exact ⟨[], by simp [releaseKeys], below_nil node⟩
  | cons k ks ih =>
      obtain ⟨hk, hks⟩ := List.nodup_cons.mp hks
      have hne : ∀ k' ∈ ks, k ≠ k' := by
        rintro k' hk' rfl
        exact hk hk'
      obtain ⟨first, hfirst, hbelow⟩ : ∃ first,
          (match child p k with
            | some q => visit freed q
            | none => some freed) = some (freed ++ first) ∧
          Below node [w ++ [k]] first := by
        cases hchild : child p k with
        | some q =>
            have hq := (h.child_iff w p k q hp).mp hchild
            exact hvisit k q freed hq (hfreed k List.mem_cons_self)
        | none => exact ⟨[], by simp, h.below_none hp hchild⟩
      have hpfirst : p ∉ freed ++ first :=
        List.not_mem_append hpfreed (h.not_mem_below hp [k] hbelow)
      obtain ⟨rest, hrest, hbelow'⟩ := ih hks hpfirst (by
        intro k' hk' v r hv hwv
        refine List.not_mem_append (hfreed k' (List.mem_cons_of_mem k hk') v r hv hwv) ?_
        intro hin
        obtain ⟨_, hsingle, v', hv', hwv'⟩ := (hbelow.mem_iff r).mp hin
        obtain rfl := List.mem_singleton.mp hsingle
        obtain rfl := h.word v v' r hv hv'
        exact apart (hne k' hk') hwv' hwv)
      refine ⟨first ++ rest, ?_, h.below_append hbelow hbelow' ?_⟩
      · rw [releaseKeys, if_neg hpfreed, hfirst, Option.bind_some, hrest, List.append_assoc]
      · intro u hu w' hw' v huv
        obtain rfl := List.mem_singleton.mp hu
        obtain ⟨k', hk', rfl⟩ := List.mem_map.mp hw'
        exact apart (hne k' hk') huv

/-- A node and the nodes below it are given back, each once, where none of them has been. -/
theorem release_eq (h : Tree child node) {keys : List K} (hnodup : keys.Nodup)
    (hall : ∀ k, k ∈ keys) {fuel : ℕ} (freed : List P) (hp : node w p)
    (hdepth : ∀ v q, node v q → v.length < w.length + fuel)
    (hfreed : ∀ v q, node v q → w <+: v → q ∉ freed) :
    ∃ out, release child keys fuel freed p = some (freed ++ out) ∧ Below node [w] out := by
  induction fuel generalizing w p freed with
  | zero => exact absurd (hdepth w p hp) (by simp)
  | succ fuel ih =>
      have hpfreed : p ∉ freed := hfreed w p hp (List.prefix_refl w)
      obtain ⟨out, hout, hbelow⟩ := h.releaseKeys_eq hp (release child keys fuel) (by
        intro k q freed hq hfreed
        refine ih freed hq ?_ hfreed
        intro v r hv
        have := hdepth v r hv
        simp only [List.length_append, List.length_singleton]
        omega) hnodup hpfreed (by
        intro k _ v r hv hwv
        exact hfreed v r hv ((List.prefix_append w [k]).trans hwv))
      refine ⟨out ++ [p], ?_, h.below_concat hp hall hbelow⟩
      rw [release, hout, Option.bind_some,
        if_neg (List.not_mem_append hpfreed (h.not_mem_below hp keys hbelow)),
        List.append_assoc]

end Tree

/-! ## Depth -/

theorem nodup_inits (w : List K) : w.inits.Nodup := by
  induction w with
  | nil => simp
  | cons k w ih =>
      rw [List.inits_cons, List.nodup_cons]
      exact ⟨by simp, ih.map (List.cons_injective (a := k))⟩

/-- With a word the prefixes of the word are there, so it is shorter than their number. -/
theorem length_lt_of_closed {words : List (List K)}
    (hclosed : ∀ w k, w ++ [k] ∈ words → w ∈ words) {w : List K} (hw : w ∈ words) :
    w.length < words.length := by
  have hsub : w.inits ⊆ words := by
    intro v hv
    rw [List.mem_inits] at hv
    induction w using List.reverseRecOn with
    | nil =>
        obtain rfl := List.prefix_nil.mp hv
        exact hw
    | append_singleton w k ih =>
        rcases List.prefix_concat_iff.mp hv with rfl | hv
        · exact hw
        · exact ih (hclosed w k hw) hv
  have := ((nodup_inits w).subperm hsub).length_le
  rw [List.length_inits] at this
  omega

end FavoriteAssignments.Trees
