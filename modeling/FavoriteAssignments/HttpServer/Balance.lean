import FavoriteAssignments.HttpServer.RequestParser

/-! # Locks taken and released

A program point holds at most the lock it carries. Following that through the
calls of one connection shows which of them return every lock they took. -/

namespace FavoriteAssignments.HttpServer

/-! ## What a program point holds -/

/-- The reader lock held at a program point. -/
def Pc.reads : Pc → Option ℕ
  | .get_open _ lock | .get_fstat _ lock | .get_send _ lock | .get_sent _ lock => some lock
  | .get_unlock lock | .get_error _ lock _ | .out_send lock _ | .out_unlock lock => some lock
  | _ => none

/-- The writer lock a program point will still release. -/
def Pc.writes : Pc → Option ℕ
  | .put_open _ _ lock | .put_recv _ _ lock | .put_received _ _ lock => some lock
  | .put_unlock lock _ => some lock
  | _ => none

/-- The writer lock that a failed `open` leaves behind. -/
def leak : Pc → Event → Option ℕ
  | .put_open _ _ lock, .open_write (some _) => some lock
  | _, _ => none

/-- A `PUT` whose `open` fails. -/
def Event.openFails : Event → Bool
  | .open_write (some _) => true
  | _ => false

theorem leak_isSome {p p' : Pc} {e : Event} (h : next p e = some p') :
    (leak p e).isSome = e.openFails := by
  cases next_cases h <;> rfl

def Pc.readsLock (lock : ℕ) (p : Pc) : Bool := decide (p.reads = some lock)

def Pc.writesLock (lock : ℕ) (p : Pc) : Bool := decide (p.writes = some lock)

/-- One call changes the reader locks held by what it takes and releases. -/
theorem next_readsLock {p p' : Pc} {e : Event} (h : next p e = some p') (lock : ℕ) :
    (p'.readsLock lock).toNat + (decide (e = .reader_unlock lock)).toNat =
      (p.readsLock lock).toNat + (decide (e = .reader_lock lock)).toNat := by
  cases next_cases h <;> simp [Pc.readsLock, Pc.reads]

theorem next_writesLock {p p' : Pc} {e : Event} (h : next p e = some p') (lock : ℕ) :
    (p'.writesLock lock).toNat + (decide (e = .writer_unlock lock)).toNat +
        (decide (leak p e = some lock)).toNat =
      (p.writesLock lock).toNat + (decide (e = .writer_lock lock)).toNat := by
  cases next_cases h <;> simp [Pc.writesLock, Pc.writes, leak]

/-! ## Along the calls of a connection -/

/-- How often a failed `open` leaves `lock` behind. -/
def leaks (lock : ℕ) : Pc → List Event → ℕ
  | _, [] => 0
  | p, e :: calls =>
      (decide (leak p e = some lock)).toNat +
        match next p e with
        | some p' => leaks lock p' calls
        | none => 0

theorem run_cons {p p' : Pc} {e : Event} {calls : List Event} :
    run p (e :: calls) = some p' ↔ ∃ mid, next p e = some mid ∧ run mid calls = some p' := by
  simp [run, Option.bind_eq_some_iff]

/-- What every call keeps of the calls so far and the program point, a whole run keeps. -/
theorem run_invariant {I : List Event → Pc → Prop}
    (hstep : ∀ done p e p', next p e = some p' → I done p → I (done ++ [e]) p')
    (done : List Event) {p p' : Pc} {calls : List Event} (h : run p calls = some p')
    (hI : I done p) : I (done ++ calls) p' := by
  induction calls generalizing p done with
  | nil =>
      obtain rfl : p = p' := by simpa [run] using h
      rwa [List.append_nil]
  | cons e calls ih =>
      obtain ⟨mid, hnext, hrun⟩ := run_cons.mp h
      rw [List.append_cons]
      exact ih (done ++ [e]) hrun (hstep done p e mid hnext hI)

theorem run_readsLock {p p' : Pc} {calls : List Event} (h : run p calls = some p') (lock : ℕ) :
    (p'.readsLock lock).toNat + calls.count (.reader_unlock lock) =
      (p.readsLock lock).toNat + calls.count (.reader_lock lock) := by
  have hstep : ∀ done q e q', next q e = some q' →
      (q.readsLock lock).toNat + done.count (.reader_unlock lock) =
        (p.readsLock lock).toNat + done.count (.reader_lock lock) →
      (q'.readsLock lock).toNat + (done ++ [e]).count (.reader_unlock lock) =
        (p.readsLock lock).toNat + (done ++ [e]).count (.reader_lock lock) := by
    intro done q e q' hnext hdone
    have hcall := next_readsLock hnext lock
    simp only [List.count_append, List.count_singleton, beq_iff_eq, Bool.toNat, Bool.cond_decide]
      at hcall hdone ⊢
    omega
  exact run_invariant hstep [] h rfl

theorem run_writesLock {p p' : Pc} {calls : List Event} (h : run p calls = some p')
    (lock : ℕ) :
    (p'.writesLock lock).toNat + calls.count (.writer_unlock lock) + leaks lock p calls =
      (p.writesLock lock).toNat + calls.count (.writer_lock lock) := by
  induction calls generalizing p with
  | nil =>
      obtain rfl : p = p' := by simpa [run] using h
      simp [leaks]
  | cons e calls ih =>
      obtain ⟨mid, hnext, hrun⟩ := run_cons.mp h
      have hstep := next_writesLock hnext lock
      have hrest := ih hrun
      simp only [List.count_cons, leaks, hnext, beq_iff_eq, Bool.toNat, Bool.cond_decide]
        at hstep hrest ⊢
      omega

/-- A lock is left behind exactly where an `open` of a `PUT` fails. -/
theorem exists_leak_iff {p p' : Pc} {calls : List Event} (h : run p calls = some p') :
    (∃ lock, 0 < leaks lock p calls) ↔ ∃ e ∈ calls, e.openFails = true := by
  induction calls generalizing p with
  | nil => simp [leaks]
  | cons e calls ih =>
      obtain ⟨mid, hnext, hrun⟩ := run_cons.mp h
      have hrest := ih hrun
      have hsome := leak_isSome hnext
      simp only [leaks, hnext, List.mem_cons, exists_eq_or_imp, ← hrest, ← hsome,
        Option.isSome_iff_exists]
      constructor
      · rintro ⟨lock, hpos⟩
        by_cases hleak : leak p e = some lock
        · exact Or.inl ⟨lock, hleak⟩
        · exact Or.inr ⟨lock, by simpa [hleak] using hpos⟩
      · rintro (⟨lock, hleak⟩ | ⟨lock, hpos⟩)
        · refine ⟨lock, Nat.add_pos_left ?_ _⟩
          rw [decide_eq_true hleak]
          exact Nat.zero_lt_one
        · exact ⟨lock, by omega⟩

/-- Every lock taken has been released as often. -/
def Balanced (calls : List Event) : Prop :=
  ∀ lock, calls.count (.reader_lock lock) = calls.count (.reader_unlock lock) ∧
    calls.count (.writer_lock lock) = calls.count (.writer_unlock lock)

/-- A connection releases what it took exactly when no `open` of a `PUT` failed. -/
theorem balanced_iff {calls : List Event} (h : Completes calls) :
    Balanced calls ↔ ∀ e ∈ calls, e.openFails = false := by
  have hleak := exists_leak_iff h
  have hreads := run_readsLock h
  have hwrites := run_writesLock h
  simp only [Pc.readsLock, Pc.reads, Pc.writesLock, Pc.writes] at hreads hwrites
  constructor
  · intro hbal e he
    cases hfails : e.openFails with
    | false => rfl
    | true =>
        obtain ⟨lock, hpos⟩ := hleak.mpr ⟨e, he, hfails⟩
        have := hwrites lock
        have := (hbal lock).2
        simp at *
        omega
  · intro hnone lock
    have hzero : ¬ 0 < leaks lock .start calls := by
      intro hpos
      obtain ⟨e, he, hfails⟩ := hleak.mp ⟨lock, hpos⟩
      simp [hnone e he] at hfails
    have := hreads lock
    have := hwrites lock
    simp at *
    omega

end FavoriteAssignments.HttpServer
