import FavoriteAssignments.Library.Loops

/-! # Runs that end, and pairs of runs

For programs in `Option`: `Ends` is partial correctness, where a failure meets every
postcondition, so that a loop needs an invariant and no measure. `Option.Rel` compares two
runs of programs that make the same tests, with one rule for each loop. -/

namespace FavoriteAssignments.Loops

variable {σ τ σ' τ' : Type*}

/-! ## Partial correctness -/

/-- If the program succeeds, its result meets `Q`. -/
def Ends (x : Option σ) (Q : σ → Prop) : Prop := ∀ s, x = some s → Q s

section Ends

variable {x : Option σ} {P Q : σ → Prop}

@[simp] theorem ends_some (s : σ) : Ends (some s) Q ↔ Q s := by
  simp [Ends]

@[simp] theorem ends_none : Ends (none : Option σ) Q := by
  simp [Ends]

theorem Ends.mono (h : Ends x P) (hPQ : ∀ s, P s → Q s) : Ends x Q :=
  fun s hs => hPQ s (h s hs)

theorem Ends.bind {f : σ → Option τ} {R : τ → Prop} (h : Ends x P)
    (hf : ∀ s, P s → Ends (f s) R) : Ends (x.bind f) R := by
  intro t ht
  obtain ⟨s, hs, hft⟩ := Option.bind_eq_some_iff.mp ht
  exact hf s (h s hs) t hft

theorem Yields.ends (h : Yields x Q) : Ends x Q :=
  fun _ hs => h.of_eq_some hs

theorem Ends.and (h : Ends x P) (h' : Ends x Q) : Ends x fun s => P s ∧ Q s :=
  fun s hs => ⟨h s hs, h' s hs⟩

theorem whileLoop_ends {test : σ → Option (σ × Bool)} {body : σ → Option σ} {fuel : ℕ} {s : σ}
    (I : σ → Prop) (hround : ∀ s, I s → Ends (test s) fun r =>
      if r.2 then Ends (body r.1) I else Q r.1)
    (h : I s) : Ends (whileLoop test body fuel s) Q := by
  induction fuel generalizing s with
  | zero => exact ends_none
  | succ fuel ih =>
      rw [whileLoop]
      refine (hround s h).bind fun r hmore => ?_
      obtain ⟨s₁, more⟩ := r
      cases more with
      | false => simpa using hmore
      | true =>
          simp only [if_true] at hmore ⊢
          exact hmore.bind fun s₂ h₂ => ih h₂

private theorem foldlM_ends {α : Type*} (body : σ → α → Option σ) (I : ℕ → σ → Prop) (xs : List α)
    {k : ℕ} {s : σ} (h : I k s)
    (hbody : ∀ k, ∀ x ∈ xs, ∀ s, I k s → Ends (body s x) (I (k + 1))) :
    Ends (xs.foldlM body s) (I (k + xs.length)) := by
  induction xs generalizing k s with
  | nil => simpa using h
  | cons x xs ih =>
      rw [List.foldlM_cons, List.length_cons, Nat.add_comm xs.length, ← Nat.add_assoc]
      exact (hbody k x List.mem_cons_self s h).bind fun s' h' =>
        ih h' fun k y hy => hbody k y (List.mem_cons_of_mem x hy)

/-- A loop that counts down, with the invariant indexed by the number of rounds made. -/
theorem forDown_ends {body : UInt32 → σ → Option σ} {lo hi : UInt32} {s : σ} (I : ℕ → σ → Prop)
    (h : I 0 s)
    (hbody : ∀ k i s, lo < i → i ≤ hi → I k s → Ends (body i s) (I (k + 1))) :
    Ends (forDown hi lo body s) (I (hi.toNat - lo.toNat)) := by
  have hloop := foldlM_ends (fun s i => body (UInt32.ofNat i) s) I
    (List.range' (lo.toNat + 1) (hi.toNat - lo.toNat)).reverse h (by
      intro k i hi' s hI
      simp only [List.mem_reverse, List.mem_range'_1] at hi'
      have hi32 : i < UInt32.size := lt_of_le_of_lt (by omega) hi.toNat_lt
      have hto : (UInt32.ofNat i).toNat = i := UInt32.toNat_ofNat_of_lt hi32
      exact hbody k _ s (UInt32.lt_iff_toNat_lt.mpr (by omega))
        (UInt32.le_iff_toNat_le.mpr (by omega)) hI)
  rw [List.length_reverse, List.length_range', Nat.zero_add] at hloop
  exact hloop

end Ends

/-! ## Two runs in lockstep -/

section Lockstep

variable {R : σ → τ → Prop} {Q : σ' → τ' → Prop} {x : Option σ} {y : Option τ}

theorem rel_bind {f : σ → Option σ'} {g : τ → Option τ'} (h : Option.Rel R x y)
    (hf : ∀ s t, R s t → Option.Rel Q (f s) (g t)) : Option.Rel Q (x.bind f) (y.bind g) := by
  cases h with
  | none => exact .none
  | some h => exact hf _ _ h

theorem rel_bind_same {α : Type*} (x : Option α) {f : α → Option σ'} {g : α → Option τ'}
    (hf : ∀ a, Option.Rel Q (f a) (g a)) : Option.Rel Q (x.bind f) (x.bind g) := by
  cases x with
  | none => exact .none
  | some a => exact hf a

/-- Both loops make the same tests with the same outcomes. -/
theorem whileLoop_rel {test : σ → Option (σ × Bool)} {body : σ → Option σ}
    {test' : τ → Option (τ × Bool)} {body' : τ → Option τ} (fuel : ℕ) {s : σ} {t : τ}
    (htest : ∀ s t, R s t → Option.Rel (fun a b => R a.1 b.1 ∧ a.2 = b.2) (test s) (test' t))
    (hbody : ∀ s t, R s t → Option.Rel R (body s) (body' t)) (h : R s t) :
    Option.Rel R (whileLoop test body fuel s) (whileLoop test' body' fuel t) := by
  induction fuel generalizing s t with
  | zero => exact .none
  | succ fuel ih =>
      rw [whileLoop, whileLoop]
      refine rel_bind (htest s t h) fun a b hab => ?_
      obtain ⟨a, more⟩ := a
      obtain ⟨b, more'⟩ := b
      obtain ⟨hR, rfl⟩ := hab
      cases more with
      | false => exact .some hR
      | true => exact rel_bind (hbody a b hR) fun s' t' => ih

private theorem foldlM_rel {α : Type*} {body : σ → α → Option σ} {body' : τ → α → Option τ}
    (xs : List α) {s : σ} {t : τ}
    (hbody : ∀ x s t, R s t → Option.Rel R (body s x) (body' t x)) (h : R s t) :
    Option.Rel R (xs.foldlM body s) (xs.foldlM body' t) := by
  induction xs generalizing s t with
  | nil => exact .some h
  | cons x xs ih =>
      rw [List.foldlM_cons, List.foldlM_cons]
      exact rel_bind (hbody x s t h) fun s' t' => ih

theorem forUp_rel {body : UInt32 → σ → Option σ} {body' : UInt32 → τ → Option τ} (lo hi : UInt32)
    {s : σ} {t : τ} (hbody : ∀ i s t, R s t → Option.Rel R (body i s) (body' i t)) (h : R s t) :
    Option.Rel R (forUp lo hi body s) (forUp lo hi body' t) :=
  foldlM_rel _ (fun _ s t => hbody _ s t) h

end Lockstep

end FavoriteAssignments.Loops
