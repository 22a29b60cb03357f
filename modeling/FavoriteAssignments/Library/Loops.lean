import Mathlib.Algebra.Group.Nat.Defs
import Mathlib.Data.UInt

/-! # Programs that may fail, and their loops

Total correctness for computations in `Option`: `Yields` says that a program ends without
a failure and in which states, and each loop has one rule with an invariant. -/

namespace FavoriteAssignments.Loops

variable {σ τ : Type*}

/-! ## Pre- and postconditions -/

/-- The program succeeds, with a result that meets `Q`. -/
def Yields (x : Option σ) (Q : σ → Prop) : Prop := ∃ s, x = some s ∧ Q s

variable {x : Option σ} {P Q : σ → Prop}

@[simp] theorem yields_some (s : σ) : Yields (some s) Q ↔ Q s := by
  simp [Yields]

theorem Yields.mono (h : Yields x P) (hPQ : ∀ s, P s → Q s) : Yields x Q := by
  obtain ⟨s, hs, hP⟩ := h
  exact ⟨s, hs, hPQ s hP⟩

/-- Sequencing: the second program starts wherever the first may end. -/
theorem Yields.bind {f : σ → Option τ} {R : τ → Prop} (h : Yields x P)
    (hf : ∀ s, P s → Yields (f s) R) : Yields (x.bind f) R := by
  obtain ⟨s, rfl, hP⟩ := h
  exact hf s hP

theorem Yields.map {f : σ → τ} {R : τ → Prop} (h : Yields x P) (hf : ∀ s, P s → R (f s)) :
    Yields (x.map f) R := by
  obtain ⟨s, rfl, hP⟩ := h
  exact ⟨f s, rfl, hf s hP⟩

/-- The postcondition holds of the result that the program is known to have. -/
theorem Yields.of_eq_some {s : σ} (h : Yields x Q) (hx : x = some s) : Q s := by
  subst hx
  exact (yields_some s).mp h

/-! ## Counters -/

theorem toNat_pred {x : UInt32} (h : 0 < x.toNat) : (x - 1).toNat = x.toNat - 1 :=
  UInt32.toNat_sub_of_le x 1 (UInt32.le_iff_toNat_le.mpr h)

theorem toNat_succ {x : UInt32} (h : x.toNat + 1 < 2 ^ 32) : (x + 1).toNat = x.toNat + 1 := by
  rw [UInt32.toNat_add]
  exact Nat.mod_eq_of_lt h

/-! ## Counting loops -/

/-- `for (uint32_t i = lo; i < hi; i++)`. -/
def forUp (lo hi : UInt32) (body : UInt32 → σ → Option σ) (s : σ) : Option σ :=
  (List.range' lo.toNat (hi.toNat - lo.toNat)).foldlM (fun s i => body (UInt32.ofNat i) s) s

/-- `for (uint32_t i = hi; i > lo; i--)`. -/
def forDown (hi lo : UInt32) (body : UInt32 → σ → Option σ) (s : σ) : Option σ :=
  (List.range' (lo.toNat + 1) (hi.toNat - lo.toNat)).reverse.foldlM
    (fun s i => body (UInt32.ofNat i) s) s

private theorem foldlM_range' (body : ℕ → σ → Option σ) (I : ℕ → σ → Prop) (lo count : ℕ)
    (s : σ) (h : I lo s)
    (hbody : ∀ i s, lo ≤ i → i < lo + count → I i s → Yields (body i s) (I (i + 1))) :
    Yields ((List.range' lo count).foldlM (fun s i => body i s) s) (I (lo + count)) := by
  induction count generalizing lo s with
  | zero => simpa using h
  | succ count ih =>
      rw [List.range'_succ, List.foldlM_cons]
      apply (hbody lo s le_rfl (by omega) h).bind
      intro s' h'
      rw [← Nat.add_assoc, Nat.add_right_comm]
      exact ih (lo + 1) s' h' (fun i s hlo hhi => hbody i s (by omega) (by omega))

/-- A counting loop whose body takes the invariant from each index to the next one. -/
theorem forUp_rule {body : UInt32 → σ → Option σ} {lo hi : UInt32} {s : σ} (I : ℕ → σ → Prop)
    (hle : lo ≤ hi) (h : I lo.toNat s)
    (hbody : ∀ i s, lo ≤ i → i < hi → I i.toNat s → Yields (body i s) (I (i.toNat + 1))) :
    Yields (forUp lo hi body s) (I hi.toNat) := by
  have hle' : lo.toNat ≤ hi.toNat := hle
  have hloop := foldlM_range' (fun i => body (UInt32.ofNat i)) I lo.toNat
    (hi.toNat - lo.toNat) s h (by
      intro i s hlo hhi hI
      have hi32 : i < UInt32.size := lt_trans (by omega) hi.toNat_lt
      have hto : (UInt32.ofNat i).toNat = i := UInt32.toNat_ofNat_of_lt hi32
      have := hbody (UInt32.ofNat i) s (UInt32.le_iff_toNat_le.mpr (by omega))
        (UInt32.lt_iff_toNat_lt.mpr (by omega)) (by rwa [hto])
      rwa [hto] at this)
  rwa [show lo.toNat + (hi.toNat - lo.toNat) = hi.toNat by omega] at hloop

/-- A loop whose range is empty does nothing. -/
theorem forUp_of_le {body : UInt32 → σ → Option σ} {lo hi : UInt32} (s : σ) (hle : hi ≤ lo) :
    forUp lo hi body s = some s := by
  have hle' : hi.toNat ≤ lo.toNat := hle
  rw [forUp, Nat.sub_eq_zero_of_le hle']
  rfl

/-- A loop whose body never fails is a fold over its indices. -/
theorem forUp_eq_foldl {body : UInt32 → σ → Option σ} {lo hi : UInt32} {f : σ → ℕ → σ} (s : σ)
    (hbody : ∀ i s, lo ≤ i → i < hi → body i s = some (f s i.toNat)) :
    forUp lo hi body s =
      some ((List.range' lo.toNat (hi.toNat - lo.toNat)).foldl f s) := by
  have hfold : ∀ (l : List ℕ) (s : σ), (∀ i ∈ l, lo.toNat ≤ i ∧ i < hi.toNat) →
      l.foldlM (fun s i => body (UInt32.ofNat i) s) s = some (l.foldl f s) := by
    intro l
    induction l with
    | nil => exact fun _ _ => rfl
    | cons i l ih =>
        intro s hl
        obtain ⟨⟨hlo, hhi⟩, hl⟩ := List.forall_mem_cons.mp hl
        have hto : (UInt32.ofNat i).toNat = i :=
          UInt32.toNat_ofNat_of_lt (lt_trans hhi hi.toNat_lt)
        rw [List.foldlM_cons, List.foldl_cons, hbody _ s (UInt32.le_iff_toNat_le.mpr (by omega))
          (UInt32.lt_iff_toNat_lt.mpr (by omega)), hto]
        exact ih _ hl
  refine hfold _ s fun i hi' => ?_
  have hrange := List.mem_range'_1.mp hi'
  omega

/-- A loop that counts down, with the invariant indexed by the value not yet reached. -/
theorem forDown_rule {body : UInt32 → σ → Option σ} {lo hi : UInt32} {s : σ} (I : ℕ → σ → Prop)
    (hle : lo ≤ hi) (h : I hi.toNat s)
    (hbody : ∀ i s, lo < i → i ≤ hi → I i.toNat s → Yields (body i s) (I (i.toNat - 1))) :
    Yields (forDown hi lo body s) (I lo.toNat) := by
  have hle' : lo.toNat ≤ hi.toNat := hle
  have hloop : ∀ count s, count ≤ hi.toNat - lo.toNat → I (lo.toNat + count) s →
      Yields ((List.range' (lo.toNat + 1) count).reverse.foldlM
        (fun s i => body (UInt32.ofNat i) s) s) (I lo.toNat) := by
    intro count
    induction count with
    | zero =>
        intro s _ h
        simpa using h
    | succ count ih =>
        intro s hcount h
        rw [List.range'_1_concat, List.reverse_append, List.reverse_singleton,
          List.singleton_append, List.foldlM_cons]
        have hi32 : lo.toNat + 1 + count < UInt32.size := lt_of_le_of_lt (by omega) hi.toNat_lt
        have hto : (UInt32.ofNat (lo.toNat + 1 + count)).toNat = lo.toNat + 1 + count :=
          UInt32.toNat_ofNat_of_lt hi32
        apply (hbody _ s (UInt32.lt_iff_toNat_lt.mpr (by omega))
          (UInt32.le_iff_toNat_le.mpr (by omega)) (by rw [hto]; convert h using 1; omega)).bind
        intro s' h'
        apply ih s' (by omega)
        rw [hto] at h'
        convert h' using 1
        omega
  exact hloop _ s le_rfl (by rwa [show lo.toNat + (hi.toNat - lo.toNat) = hi.toNat by omega])

/-! ## Loops with a test -/

/-- `while (test) body`, with fuel for the number of times the test is made. The test may
fail and change the state as well. -/
def whileLoop (test : σ → Option (σ × Bool)) (body : σ → Option σ) : ℕ → σ → Option σ
  | 0, _ => none
  | fuel + 1, s =>
      (test s).bind fun (s, more) =>
        if more then (body s).bind (whileLoop test body fuel) else some s

/-- A round either repeats with a smaller measure or ends in the postcondition. -/
theorem whileLoop_rule {test : σ → Option (σ × Bool)} {body : σ → Option σ} {fuel : ℕ} {s : σ}
    (I : σ → Prop) (μ : σ → ℕ) (hround : ∀ s, I s → Yields (test s) fun r =>
      if r.2 then Yields (body r.1) fun s' => I s' ∧ μ s' < μ s else Q r.1)
    (h : I s) (hfuel : μ s < fuel) : Yields (whileLoop test body fuel s) Q := by
  induction fuel generalizing s with
  | zero => omega
  | succ fuel ih =>
      rw [whileLoop]
      apply (hround s h).bind
      rintro ⟨s₁, more⟩ hmore
      cases more with
      | false => simpa using hmore
      | true =>
          simp only [if_true] at hmore ⊢
          exact hmore.bind fun s₂ h₂ => ih h₂.1 (by omega)

end FavoriteAssignments.Loops
