import FavoriteAssignments.BoundedQueue.Queue
import FavoriteAssignments.Library.Ring
import FavoriteAssignments.Library.ThreadCount
import FavoriteAssignments.Library.Transition

/-! # First in, first out

Between the statements of an open section the fields of the queue disagree with
each other. They are compared as they stand once the section's own statements
have caught up, which at most one thread ever has to do. -/

namespace FavoriteAssignments.BoundedQueue

open ThreadCount Transition RingBuffer

variable {T E : Type*}

/-! ## Classes of program points -/

namespace Pc

/-- Between `sem_wait(&q->mutex)` and `sem_post(&q->mutex)`. -/
def inside : Pc E → Bool
  | .push_rear _ | .push_store _ | .push_size _ | .push_post_mutex _ => true
  | .pop_load | .pop_front _ | .pop_size _ | .pop_post_mutex _ => true
  | _ => false

/-- Has taken a unit of `empty` and not yet stored. -/
def hasRoom : Pc E → Bool
  | .push_wait_mutex _ | .push_rear _ | .push_store _ => true
  | _ => false

/-- Has stored and not yet posted `filled`. -/
def hasStored : Pc E → Bool
  | .push_size _ | .push_post_mutex _ | .push_post_filled _ => true
  | _ => false

/-- Has taken a unit of `filled` and not yet loaded. -/
def hasClaim : Pc E → Bool
  | .pop_wait_mutex | .pop_load => true
  | _ => false

/-- Has loaded and not yet posted `empty`. -/
def hasLoaded : Pc E → Bool
  | .pop_front _ | .pop_size _ | .pop_post_mutex _ | .pop_post_empty _ => true
  | _ => false

end Pc

/-! ## The fields an open section leaves behind -/

/-- The queue with `front` and `size` of an open section brought to what the array holds. -/
def Queue.settle (q : Queue E) : Pc E → Queue E
  | .push_size _ => { q with size := q.size + 1 }
  | .pop_front _ => { q with front := (q.front + 1).tmod q.capacity, size := q.size - 1 }
  | .pop_size _ => { q with size := q.size - 1 }
  | _ => q

/-- `rear` is the last of `n` slots, or already the next one when a store is due. -/
def Queue.RearAt (q : Queue E) (n : ℕ) : Pc E → Prop
  | .push_store _ => q.rear = pos q.capacity q.front n
  | _ => -1 ≤ q.rear ∧ q.rear < q.capacity ∧
      (q.rear + 1) % q.capacity = pos q.capacity q.front n

/-- The array, `front`, `rear` and `size` represent `items`. -/
structure Layout (p : Pc E) (q : Queue E) (unread : ℤ → Bool) (items : List E) : Prop where
  capacity : 1 ≤ q.capacity
  size : q.size = items.length
  front_nonneg : 0 ≤ q.front
  front_lt : q.front < q.capacity
  rear : q.RearAt items.length p
  holds : Holds q.capacity q.front q.queue unread items

/-- The thread inside the section, or nobody. -/
inductive Open (s : State T E) : Pc E → Prop where
  | thread (t : T) (h : (s.pc t).inside = true) : Open s (s.pc t)
  | nobody (h : ∀ t, (s.pc t).inside = false) : Open s .outside

/-- `items` are the elements between the two histories; the semaphores and the
threads on their way account for every slot. -/
structure Invariant [Fintype T] (s : State T E) (items : List E) : Prop where
  history : s.pushed = s.popped ++ items
  mutex : s.q.mutex + count s.pc Pc.inside = 1
  empty : s.q.empty + count s.pc Pc.hasRoom + count s.pc Pc.hasLoaded + items.length =
    s.q.capacity
  filled : s.q.filled + count s.pc Pc.hasStored + count s.pc Pc.hasClaim = items.length
  layout : ∀ p, Open s p → Layout p (s.q.settle p) s.unread items

/-! ## Statements of a section -/

section Statements

variable {q : Queue E} {unread : ℤ → Bool} {items : List E} {e : E}

theorem tmod_succ {capacity i : ℤ} (h0 : -1 ≤ i) :
    (i + 1).tmod capacity = (i + 1) % capacity :=
  Int.tmod_eq_emod_of_nonneg (by omega)

theorem push_rear_layout (h : Layout (.push_rear e) q unread items) :
    Layout (.push_store e) { q with rear := (q.rear + 1).tmod q.capacity } unread items := by
  obtain ⟨h1, h2, h3, h4, ⟨h5, -, h7⟩, h8⟩ := h
  exact ⟨h1, h2, h3, h4, (tmod_succ h5).trans h7, h8⟩

theorem push_store_layout (h : Layout (.push_store e) q unread items)
    (hroom : items.length < q.capacity) :
    Layout (.push_size e)
      { q with queue := Function.update q.queue q.rear e, size := q.size + 1 }
      (Function.update unread q.rear true) (items ++ [e]) := by
  obtain ⟨h1, h2, h3, h4, h5, h8⟩ := h
  simp only [Queue.RearAt] at h5
  have hnonneg : 0 ≤ pos q.capacity q.front items.length := pos_nonneg h1 _
  have hlt : pos q.capacity q.front items.length < q.capacity := pos_lt h1 _
  refine ⟨h1, by simp [h2], h3, h4, ⟨by simp only; omega, by simp only; omega, ?_⟩, ?_⟩
  · simp [h5, pos, Int.add_assoc]
  · simpa only [h5] using h8.push hroom e

theorem pop_load_layout (h : Layout .pop_load q unread (e :: items)) :
    q.queue q.front = e ∧
      Layout (.pop_front e)
        { q with front := (q.front + 1).tmod q.capacity, size := q.size - 1 }
        (Function.update unread q.front false) items := by
  obtain ⟨h1, h2, h3, h4, ⟨h5, h6, h7⟩, h8⟩ := h
  have hnext : (q.front + 1).tmod q.capacity = pos q.capacity q.front 1 := tmod_succ (by omega)
  rw [hnext]
  refine ⟨h8.front_eq h3 h4, h1, by simp [h2], pos_nonneg h1 1, pos_lt h1 1, ⟨h5, h6, ?_⟩,
    h8.pop h3 h4⟩
  simpa [pos_succ] using h7

end Statements

/-! ## Layout of the open section -/

section Sections

variable {q : Queue E} {unread : ℤ → Bool} {items : List E} {p p' : Pc E}

theorem Layout.move (h : Layout p q unread items)
    (hrear : q.RearAt items.length p → q.RearAt items.length p') : Layout p' q unread items :=
  ⟨h.capacity, h.size, h.front_nonneg, h.front_lt, hrear h.rear, h.holds⟩

/-- A thread that is not inside has nothing to catch up with. -/
theorem Layout.outside (hp : p.inside = false) (h : Layout p (q.settle p) unread items) :
    Layout .outside q unread items := by
  cases p <;> first | exact h.move id | exact absurd hp (by simp [Pc.inside])

theorem Layout.semaphores (h : Layout p (q.settle p) unread items) (mutex filled empty : ℕ) :
    Layout p (Queue.settle { q with mutex := mutex, filled := filled, empty := empty } p)
      unread items := by
  obtain ⟨h1, h2, h3, h4, h5, h6⟩ := h
  cases p <;> exact ⟨h1, h2, h3, h4, h5, h6⟩

variable {s s' : State T E} [DecidableEq T] {t : T}

/-- Where nobody else is inside, only the moving thread's point matters. -/
theorem open_alone (halone : ∀ u, u ≠ t → (s.pc u).inside = false)
    (hpc : s'.pc = Function.update s.pc t p')
    (h : Layout p' (s'.q.settle p') s'.unread items) :
    ∀ p, Open s' p → Layout p (s'.q.settle p) s'.unread items := by
  intro p hopen
  cases hopen with
  | thread u hu =>
      have hut : u = t := by
        by_contra hne
        rw [hpc, Function.update_of_ne hne, halone u hne] at hu
        exact Bool.noConfusion hu
      rw [hut, hpc, Function.update_self]
      exact h
  | nobody hnone =>
      have hp' := hnone t
      rw [hpc, Function.update_self] at hp'
      exact h.outside hp'

/-- A thread that stays out of the section moves nothing in it. -/
theorem open_frame (h : ∀ p, Open s p → Layout p (s.q.settle p) s.unread items)
    (ht : (s.pc t).inside = false) (hp' : p'.inside = false) (mutex filled empty : ℕ) :
    ∀ p, Open (State.goto { s with q := { s.q with
      mutex := mutex, filled := filled, empty := empty } } t p') p →
      Layout p (Queue.settle { s.q with mutex := mutex, filled := filled, empty := empty } p)
        s.unread items := by
  intro p hopen
  refine (h p ?_).semaphores mutex filled empty
  cases hopen with
  | thread u hu =>
      simp only [State.goto] at hu ⊢
      by_cases hut : u = t
      · rw [hut, Function.update_self, hp'] at hu
        exact Bool.noConfusion hu
      · rw [Function.update_of_ne hut] at hu ⊢
        exact .thread u hu
  | nobody hnone =>
      refine .nobody fun u => ?_
      by_cases hut : u = t
      · rw [hut, ht]
      · simpa [State.goto, hut] using hnone u

end Sections

/-! ## One step -/

section Steps

variable [DecidableEq T] [Fintype T] {s s' : State T E} {items : List E} {t : T}

omit [DecidableEq T] in
/-- A thread inside is there alone, and its point says how the fields stand. -/
theorem Invariant.inside (h : Invariant s items) {p : Pc E} (hpc : s.pc t = p)
    (hp : p.inside = true) : (∀ u, u ≠ t → (s.pc u).inside = false) ∧
      Layout p (s.q.settle p) s.unread items := by
  subst hpc
  refine ⟨?_, h.layout _ (.thread t hp)⟩
  intro u hne
  cases hu : (s.pc u).inside with
  | false => rfl
  | true =>
      have hmutex := h.mutex
      exact absurd (count_le_one (by omega) hu hp) hne

omit [DecidableEq T] in
theorem alone_of_mutex (h : Invariant s items) (hpos : 0 < s.q.mutex) :
    ∀ u, (s.pc u).inside = false := by
  have hmutex := h.mutex
  exact count_eq_zero.mp (by omega)

/-- The three equations after a thread has moved, from what its two points and the
semaphores contribute. -/
theorem Invariant.counts (h : Invariant s items) {p p' : Pc E} (hpc : s.pc t = p)
    {mutex filled empty n : ℕ}
    (hmutex : mutex + p'.inside.toNat = s.q.mutex + p.inside.toNat)
    (hempty : empty + p'.hasRoom.toNat + p'.hasLoaded.toNat + n =
      s.q.empty + p.hasRoom.toNat + p.hasLoaded.toNat + items.length)
    (hfilled : filled + p'.hasStored.toNat + p'.hasClaim.toNat + items.length =
      s.q.filled + p.hasStored.toNat + p.hasClaim.toNat + n) :
    mutex + count (Function.update s.pc t p') Pc.inside = 1 ∧
      empty + count (Function.update s.pc t p') Pc.hasRoom +
        count (Function.update s.pc t p') Pc.hasLoaded + n = s.q.capacity ∧
      filled + count (Function.update s.pc t p') Pc.hasStored +
        count (Function.update s.pc t p') Pc.hasClaim = n := by
  have h1 := h.mutex
  have h2 := h.empty
  have h3 := h.filled
  have c1 := count_update s.pc t p' Pc.inside
  have c2 := count_update s.pc t p' Pc.hasRoom
  have c3 := count_update s.pc t p' Pc.hasStored
  have c4 := count_update s.pc t p' Pc.hasClaim
  have c5 := count_update s.pc t p' Pc.hasLoaded
  rw [hpc] at c1 c2 c3 c4 c5
  omega

/-- A statement outside the section. -/
theorem Invariant.frame (h : Invariant s items) {p p' : Pc E} (hpc : s.pc t = p)
    {mutex filled empty : ℕ} (hp : p.inside = false) (hp' : p'.inside = false)
    (hmutex : mutex = s.q.mutex)
    (hempty : empty + p'.hasRoom.toNat + p'.hasLoaded.toNat =
      s.q.empty + p.hasRoom.toNat + p.hasLoaded.toNat)
    (hfilled : filled + p'.hasStored.toNat + p'.hasClaim.toNat =
      s.q.filled + p.hasStored.toNat + p.hasClaim.toNat) :
    Invariant (State.goto { s with q := { s.q with
      mutex := mutex, filled := filled, empty := empty } } t p') items := by
  have hm' : mutex + p'.inside.toNat = s.q.mutex + p.inside.toNat := by rw [hp, hp', hmutex]
  have he' : empty + p'.hasRoom.toNat + p'.hasLoaded.toNat + items.length =
      s.q.empty + p.hasRoom.toNat + p.hasLoaded.toNat + items.length := by omega
  have hf' : filled + p'.hasStored.toNat + p'.hasClaim.toNat + items.length =
      s.q.filled + p.hasStored.toNat + p.hasClaim.toNat + items.length := by omega
  obtain ⟨hm, he, hf⟩ := h.counts hpc hm' he' hf'
  exact ⟨h.history, hm, he, hf, open_frame h.layout (by rw [hpc, hp]) hp' _ _ _⟩

/-- A statement of the section, run while nobody else is inside. -/
theorem Invariant.section (h : Invariant s items) {items' : List E} {p p' : Pc E}
    (hpc : s.pc t = p) (halone : ∀ u, u ≠ t → (s.pc u).inside = false)
    (hs' : s'.pc = Function.update s.pc t p') (hcap : s'.q.capacity = s.q.capacity)
    (hhist : s'.pushed = s'.popped ++ items')
    (hmutex : s'.q.mutex + p'.inside.toNat = s.q.mutex + p.inside.toNat)
    (hempty : s'.q.empty + p'.hasRoom.toNat + p'.hasLoaded.toNat + items'.length =
      s.q.empty + p.hasRoom.toNat + p.hasLoaded.toNat + items.length)
    (hfilled : s'.q.filled + p'.hasStored.toNat + p'.hasClaim.toNat + items.length =
      s.q.filled + p.hasStored.toNat + p.hasClaim.toNat + items'.length)
    (hlayout : Layout p' (s'.q.settle p') s'.unread items') : Invariant s' items' := by
  obtain ⟨hm, he, hf⟩ := h.counts hpc hmutex hempty hfilled
  refine ⟨hhist, ?_, ?_, ?_, open_alone halone hs' hlayout⟩ <;> rw [hs']
  · exact hm
  · rw [hcap]
    exact he
  · exact hf

/-- Every statement of every thread keeps the invariant. -/
theorem step_invariant (h : Invariant s items) (hs : Step s t s') :
    ∃ items', Invariant s' items' := by
  cases hs with
  | call_push elem hpc =>
      exact ⟨items, h.frame hpc rfl rfl rfl rfl rfl⟩
  | push_wait_empty elem hpc hpos =>
      exact ⟨items, h.frame hpc rfl rfl rfl (by simp [Pc.hasRoom, Pc.hasLoaded]; omega) rfl⟩
  | push_wait_mutex elem hpc hpos =>
      have halone := alone_of_mutex h hpos
      have hl := (h.layout _ (.nobody halone)).semaphores (s.q.mutex - 1) s.q.filled s.q.empty
      exact ⟨items, h.section hpc (fun u _ => halone u) rfl rfl h.history
        (by simp [Pc.inside, State.goto]; omega) rfl rfl (hl.move id)⟩
  | push_rear elem hpc =>
      obtain ⟨halone, hl⟩ := h.inside hpc rfl
      exact ⟨items, h.section hpc halone rfl rfl h.history rfl rfl rfl (push_rear_layout hl)⟩
  | push_store elem hpc =>
      obtain ⟨halone, hl⟩ := h.inside hpc rfl
      have hroom : (items.length : ℤ) < s.q.capacity := by
        have hempty := h.empty
        have := count_pos_of (f := Pc.hasRoom) (show Pc.hasRoom (s.pc t) = true by rw [hpc]; rfl)
        omega
      exact ⟨items ++ [elem], h.section hpc halone rfl rfl
        (by simp [State.store, State.goto, h.history]) rfl
        (by simp [Pc.hasRoom, Pc.hasLoaded, State.store, State.goto]; omega)
        (by simp [Pc.hasStored, Pc.hasClaim, State.store, State.goto]; omega)
        (push_store_layout hl hroom)⟩
  | push_size elem hpc =>
      obtain ⟨halone, hl⟩ := h.inside hpc rfl
      exact ⟨items, h.section hpc halone rfl rfl h.history rfl rfl rfl (hl.move id)⟩
  | push_post_mutex elem hpc =>
      obtain ⟨halone, hl⟩ := h.inside hpc rfl
      have hl' := hl.semaphores (s.q.mutex + 1) s.q.filled s.q.empty
      exact ⟨items, h.section hpc halone rfl rfl h.history rfl rfl rfl (hl'.move id)⟩
  | push_post_filled elem hpc =>
      exact ⟨items, h.frame hpc rfl rfl rfl rfl rfl⟩
  | call_pop hpc =>
      exact ⟨items, h.frame hpc rfl rfl rfl rfl rfl⟩
  | pop_wait_filled hpc hpos =>
      exact ⟨items, h.frame hpc rfl rfl rfl rfl (by simp [Pc.hasStored, Pc.hasClaim]; omega)⟩
  | pop_wait_mutex hpc hpos =>
      have halone := alone_of_mutex h hpos
      have hl := (h.layout _ (.nobody halone)).semaphores (s.q.mutex - 1) s.q.filled s.q.empty
      exact ⟨items, h.section hpc (fun u _ => halone u) rfl rfl h.history
        (by simp [Pc.inside, State.goto]; omega) rfl rfl (hl.move id)⟩
  | pop_load hpc =>
      obtain ⟨halone, hl⟩ := h.inside hpc rfl
      cases items with
      | nil =>
          have hfilled := h.filled
          have := count_pos_of (f := Pc.hasClaim)
            (show Pc.hasClaim (s.pc t) = true by rw [hpc]; rfl)
          simp only [List.length_nil] at hfilled
          omega
      | cons e rest =>
          obtain ⟨hfront, hlayout⟩ := pop_load_layout hl
          exact ⟨rest, h.section hpc halone rfl rfl
            (by simp [State.load, State.goto, h.history]; exact hfront.symm) rfl
            (by simp [Pc.hasRoom, Pc.hasLoaded, State.load, State.goto]; omega)
            (by simp [Pc.hasStored, Pc.hasClaim, State.load, State.goto]; omega)
            (hlayout.move id)⟩
  | pop_front elem hpc =>
      obtain ⟨halone, hl⟩ := h.inside hpc rfl
      exact ⟨items, h.section hpc halone rfl rfl h.history rfl rfl rfl (hl.move id)⟩
  | pop_size elem hpc =>
      obtain ⟨halone, hl⟩ := h.inside hpc rfl
      exact ⟨items, h.section hpc halone rfl rfl h.history rfl rfl rfl (hl.move id)⟩
  | pop_post_mutex elem hpc =>
      obtain ⟨halone, hl⟩ := h.inside hpc rfl
      have hl' := hl.semaphores (s.q.mutex + 1) s.q.filled s.q.empty
      exact ⟨items, h.section hpc halone rfl rfl h.history rfl rfl rfl (hl'.move id)⟩
  | pop_post_empty elem hpc =>
      exact ⟨items, h.frame hpc rfl rfl rfl (by simp [Pc.hasRoom, Pc.hasLoaded]) rfl⟩

end Steps

/-! ## Every reachable state -/

section Runs

variable [DecidableEq T] [Fintype T] {s : State T E} {null : E} {capacity : ℤ}

omit [DecidableEq T] in
theorem initial_invariant (hcap : 1 ≤ capacity) (h : Initial null capacity s) :
    Invariant s [] := by
  subst h
  have hzero : ∀ f : Pc E → Bool, f .outside = false →
      count (fun _ : T => (Pc.outside : Pc E)) f = 0 := by
    intro f hf
    exact count_eq_zero.mpr fun _ => hf
  refine ⟨rfl, ?_, ?_, ?_, ?_⟩
  · simp [queue_new, hzero Pc.inside rfl]
  · simp [queue_new, hzero Pc.hasRoom rfl, hzero Pc.hasLoaded rfl]
    omega
  · simp [queue_new, hzero Pc.hasStored rfl, hzero Pc.hasClaim rfl]
  · intro p hopen
    cases hopen with
    | thread t ht => exact Bool.noConfusion ht
    | nobody _ =>
        refine ⟨hcap, rfl, le_refl 0, hcap, ⟨le_refl (-1), ?_, ?_⟩, .nil ?_ _⟩
        · simp [Queue.settle, queue_new]
          omega
        · simp [Queue.settle, queue_new, pos]
        · simp [Queue.settle, queue_new]
          omega

theorem reachable_invariant (hcap : 1 ≤ capacity)
    (h : Reachable (Initial null capacity) Step Always s) : ∃ items, Invariant s items := by
  refine h.invariant (P := fun s : State T E => ∃ items, Invariant s items)
    (fun _ h => ⟨[], initial_invariant hcap h⟩) ?_
  rintro s t s' ⟨items, hinv⟩ - hs
  exact step_invariant hinv hs

omit [Fintype T] in
/-- The capacity never changes. -/
theorem reachable_capacity (h : Reachable (Initial null capacity) Step Always s) :
    s.q.capacity = capacity := by
  refine h.invariant (P := fun s : State T E => s.q.capacity = capacity) ?_ ?_
  · rintro s rfl
    rfl
  · rintro s t s' hcap - hs
    cases hs <;> exact hcap

omit [DecidableEq T] in
/-- The size as it stands, whatever statement of a section is due. -/
theorem Invariant.size_bounds {items : List E} (h : Invariant s items) :
    0 ≤ s.q.size ∧ s.q.size ≤ s.q.capacity := by
  have hempty := h.empty
  have hfilled := h.filled
  by_cases hnone : ∀ t, (s.pc t).inside = false
  · have hsize := (h.layout _ (.nobody hnone)).size
    simp only [Queue.settle] at hsize
    omega
  · push Not at hnone
    obtain ⟨t, ht⟩ := hnone
    obtain ⟨-, hl⟩ := h.inside rfl (Bool.eq_true_of_not_eq_false ht)
    have hsize := hl.size
    have hstored : (s.pc t).hasStored = true → 0 < count s.pc Pc.hasStored := count_pos_of
    have hloaded : (s.pc t).hasLoaded = true → 0 < count s.pc Pc.hasLoaded := count_pos_of
    cases hpc : s.pc t <;> rw [hpc] at hsize hstored hloaded <;>
      simp [Queue.settle, Pc.hasStored, Pc.hasLoaded] at hsize hstored hloaded <;> omega

/-- In every reachable state the size is within the capacity, the elements popped are a
prefix of those pushed, a store goes to a slot of the array whose element has been
loaded, and a load comes from a slot whose element has not. -/
theorem queue_fifo (hcap : 1 ≤ capacity)
    (h : Reachable (Initial null capacity) Step Always s) :
    (0 ≤ s.q.size ∧ s.q.size ≤ capacity) ∧ s.popped <+: s.pushed ∧
    (∀ t e, s.pc t = .push_store e →
      (0 ≤ s.q.rear ∧ s.q.rear < capacity) ∧ s.unread s.q.rear = false) ∧
    (∀ t, s.pc t = .pop_load →
      (0 ≤ s.q.front ∧ s.q.front < capacity) ∧ s.unread s.q.front = true) := by
  obtain ⟨items, hinv⟩ := reachable_invariant hcap h
  have hcapacity := reachable_capacity h
  refine ⟨hcapacity ▸ hinv.size_bounds, ⟨items, hinv.history.symm⟩, ?_, ?_⟩
  · intro t e hpc
    obtain ⟨-, hl⟩ := hinv.inside hpc rfl
    have hrear : s.q.rear = pos s.q.capacity s.q.front items.length := hl.rear
    have hroom : (items.length : ℤ) < s.q.capacity := by
      have hempty := hinv.empty
      have := count_pos_of (f := Pc.hasRoom) (show Pc.hasRoom (s.pc t) = true by rw [hpc]; rfl)
      omega
    rw [hrear, ← hcapacity]
    exact ⟨⟨pos_nonneg hl.capacity _, pos_lt hl.capacity _⟩, hl.holds.end_not_live hroom⟩
  · intro t hpc
    obtain ⟨-, hl⟩ := hinv.inside hpc rfl
    rw [← hcapacity]
    refine ⟨⟨hl.front_nonneg, hl.front_lt⟩, ?_⟩
    cases items with
    | nil =>
        have hfilled := hinv.filled
        have := count_pos_of (f := Pc.hasClaim) (show Pc.hasClaim (s.pc t) = true by rw [hpc]; rfl)
        simp only [List.length_nil] at hfilled
        omega
    | cons e rest => exact hl.holds.front_live hl.front_nonneg hl.front_lt

/-- Two threads at a queue of two slots. One waits for an element while the other pushes 7, loads it
while 8 is on its way, and the third element goes into the first slot again. -/
theorem queue_fifo_two_slots :
    (∃ s : State (Fin 2) ℕ, Reachable (Initial 0 2) Step Always s ∧ s.pc 1 = .pop_load ∧
      (0 ≤ s.q.front ∧ s.q.front < 2) ∧ s.unread s.q.front = true) ∧
    ∃ s : State (Fin 2) ℕ, Reachable (Initial 0 2) Step Always s ∧ s.pc 0 = .push_store 9 ∧
      s.q.rear = 0 ∧ s.unread s.q.rear = false ∧ s.pushed = [7, 8] ∧ s.popped = [7] ∧
      s.popped <+: s.pushed ∧ (0 ≤ s.q.size ∧ s.q.size ≤ 2) := by
  have start : Reachable (Initial 0 2) Step Always
      (⟨queue_new 0 2, fun _ => .outside, [], [], fun _ => false⟩ : State (Fin 2) ℕ) := .start rfl
  have waits := start.next trivial (.call_pop 1 rfl)
  have push1 := waits.next trivial (.call_push 0 7 rfl)
  have push2 := push1.next trivial (.push_wait_empty 0 7 rfl (by decide))
  have push3 := push2.next trivial (.push_wait_mutex 0 7 rfl (by decide))
  have push4 := push3.next trivial (.push_rear 0 7 rfl)
  have push5 := push4.next trivial (.push_store 0 7 rfl)
  have push6 := push5.next trivial (.push_size 0 7 rfl)
  have push7 := push6.next trivial (.push_post_mutex 0 7 rfl)
  have push8 := push7.next trivial (.push_post_filled 0 7 rfl)
  -- The push of 8 begins while 7 is being popped.
  have pop1 := push8.next trivial (.pop_wait_filled 1 rfl (by decide))
  have second1 := pop1.next trivial (.call_push 0 8 rfl)
  have second2 := second1.next trivial (.push_wait_empty 0 8 rfl (by decide))
  have pop2 := second2.next trivial (.pop_wait_mutex 1 rfl (by decide))
  have hload := (queue_fifo (by decide) pop2).2.2.2 1 rfl
  refine ⟨⟨_, pop2, rfl, hload⟩, ?_⟩
  have pop3 := pop2.next trivial (.pop_load 1 rfl)
  have pop4 := pop3.next trivial (.pop_front 1 7 rfl)
  have pop5 := pop4.next trivial (.pop_size 1 7 rfl)
  have pop6 := pop5.next trivial (.pop_post_mutex 1 7 rfl)
  have second3 := pop6.next trivial (.push_wait_mutex 0 8 rfl (by decide))
  have second4 := second3.next trivial (.push_rear 0 8 rfl)
  have second5 := second4.next trivial (.push_store 0 8 rfl)
  have second6 := second5.next trivial (.push_size 0 8 rfl)
  have second7 := second6.next trivial (.push_post_mutex 0 8 rfl)
  have second8 := second7.next trivial (.push_post_filled 0 8 rfl)
  have pop7 := second8.next trivial (.pop_post_empty 1 7 rfl)
  -- The third element wraps around.
  have third1 := pop7.next trivial (.call_push 0 9 rfl)
  have third2 := third1.next trivial (.push_wait_empty 0 9 rfl (by decide))
  have third3 := third2.next trivial (.push_wait_mutex 0 9 rfl (by decide))
  have third4 := third3.next trivial (.push_rear 0 9 rfl)
  obtain ⟨hsize, hprefix, hstore, -⟩ := queue_fifo (by decide) third4
  exact ⟨_, third4, rfl, by decide, (hstore 0 9 rfl).2, rfl, rfl, hprefix, hsize⟩

end Runs

end FavoriteAssignments.BoundedQueue
