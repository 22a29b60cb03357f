import FavoriteAssignments.SchmidtSamoa.Primes
import Mathlib.Logic.Function.Basic

/-! # `pow_mod` on variables

The operations of GMP write into a variable that may be one of their operands, and so may
`pow_mod`: `is_prime` squares `y` into `y` itself. Here it runs on a store of variables, and
is compared with the function on integers. -/

namespace FavoriteAssignments.SchmidtSamoa.Mpz

/-! ## The operations -/

section Operations

variable {κ : Type*} [DecidableEq κ]

def mpz_set (r x : κ) (m : κ → ℤ) : κ → ℤ := Function.update m r (m x)

def mpz_set_ui (r : κ) (k : ℕ) (m : κ → ℤ) : κ → ℤ := Function.update m r k

def mpz_mul (r x y : κ) (m : κ → ℤ) : κ → ℤ := Function.update m r (m x * m y)

/-- The remainder of `mpz_mod` is never negative. -/
def mpz_mod (r x y : κ) (m : κ → ℤ) : κ → ℤ := Function.update m r (m x % m y)

/-- The quotient rounded down, for an odd dividend too. -/
def mpz_divexact_ui (r x : κ) (k : ℕ) (m : κ → ℤ) : κ → ℤ := Function.update m r (m x / k)

end Operations

/-! ## The program -/

/-- The caller's variables and those of `pow_mod` that it uses. -/
inductive Var (ι : Type*)
  | arg (v : ι)
  | base
  | exp
  deriving DecidableEq

variable {ι : Type*} [DecidableEq ι]

/-- The body of the loop. -/
def powModStep (o n : ι) (m : Var ι → ℤ) : Var ι → ℤ :=
  let m :=
    if m .exp % 2 = 1 then
      mpz_mod (.arg o) (.arg o) (.arg n) (mpz_mul (.arg o) (.arg o) .base m)
    else m
  let m := mpz_divexact_ui .exp .exp 2 m
  let m := mpz_mul .base .base .base m
  mpz_mod .base .base (.arg n) m

theorem powModStep_exp (o n : ι) (m : Var ι → ℤ) : powModStep o n m .exp = m .exp / 2 := by
  simp only [powModStep, mpz_mod, mpz_mul, mpz_divexact_ui]
  split <;> simp

def powModLoop (o n : ι) (m : Var ι → ℤ) : Var ι → ℤ :=
  if m .exp > 0 then powModLoop o n (powModStep o n m) else m
termination_by (m .exp).toNat
decreasing_by
  rw [powModStep_exp]
  omega

/-- `mpz_inits` makes the variables of `pow_mod` zero. -/
def mpz_inits (m : ι → ℤ) : Var ι → ℤ
  | .arg v => m v
  | .base => 0
  | .exp => 0

def pow_mod (o a d n : ι) (m : ι → ℤ) : ι → ℤ :=
  let m := mpz_inits m
  let m := mpz_mod .base (.arg a) (.arg n) m
  let m := mpz_set .exp (.arg d) m
  let m := mpz_set_ui (.arg o) 1 m
  fun v => powModLoop o n m (.arg v)

/-- The loop of `is_prime` over `j`, in the variables of `is_prime`. -/
def squareLoop (y two n d : ι) : ℕ → (ι → ℤ) → Bool
  | 0, _ => false
  | s + 1, m =>
      if m y = m d then true
      else squareLoop y two n d s (pow_mod y y two n (mpz_set_ui two 2 m))

/-! ## What one round does -/

section Step

variable {o n v : ι} (m : Var ι → ℤ)

theorem powModStep_output (hn : n ≠ o) : powModStep o n m (.arg o) =
    if m .exp % 2 = 1 then m (.arg o) * m .base % m (.arg n) else m (.arg o) := by
  simp only [powModStep, mpz_mod, mpz_mul, mpz_divexact_ui]
  split <;> simp [hn]

theorem powModStep_of_ne (hv : v ≠ o) : powModStep o n m (.arg v) = m (.arg v) := by
  simp only [powModStep, mpz_mod, mpz_mul, mpz_divexact_ui]
  split <;> simp [hv]

theorem powModStep_base (hn : n ≠ o) :
    powModStep o n m .base = m .base * m .base % m (.arg n) := by
  simp only [powModStep, mpz_mod, mpz_mul, mpz_divexact_ui]
  split <;> simp [hn]

end Step

/-! ## What the whole loop does -/

section Loop

variable {o n v : ι}

theorem powModLoop_of_ne (hv : v ≠ o) (m : Var ι → ℤ) :
    powModLoop o n m (.arg v) = m (.arg v) := by
  fun_induction powModLoop o n m with
  | case1 m _ ih => rw [ih, powModStep_of_ne m hv]
  | case2 m _ => rfl

/-- On variables the loop ends with what it ends with on integers. -/
theorem powModLoop_output (hn : n ≠ o) (m : Var ι → ℤ) : powModLoop o n m (.arg o) =
    SchmidtSamoa.powModLoop (m (.arg o)) (m .base) (m .exp) (m (.arg n)) := by
  fun_induction powModLoop o n m with
  | case1 m hpos ih =>
      rw [ih, powModStep_output m hn, powModStep_base m hn, powModStep_exp,
        powModStep_of_ne m hn]
      conv_rhs => rw [SchmidtSamoa.powModLoop, if_pos hpos]
  | case2 m hstop => rw [SchmidtSamoa.powModLoop, if_neg hstop]

end Loop

/-! ## Calls -/

section Calls

variable {o a d n : ι}

/-- Only the output changes, whether or not it is one of the other operands. -/
theorem pow_mod_eq_update (hn : n ≠ o) (m : ι → ℤ) :
    pow_mod o a d n m = Function.update m o (SchmidtSamoa.pow_mod (m a) (m d) (m n)) := by
  funext v
  by_cases hv : v = o
  · subst hv
    rw [Function.update_self, SchmidtSamoa.pow_mod, pow_mod]
    dsimp only
    rw [powModLoop_output hn]
    simp [mpz_set_ui, mpz_set, mpz_mod, mpz_inits, hn]
  · rw [Function.update_of_ne hv, pow_mod]
    dsimp only
    rw [powModLoop_of_ne hv]
    simp [mpz_set_ui, mpz_set, mpz_mod, mpz_inits, hv]

/-- `pow_mod` leaves the reduced power in its output, which may be `a` or `d`, and changes no
other variable. -/
theorem pow_mod_output (m : ι → ℤ) (o a d n : ι) (ho : n ≠ o) (hd : 0 ≤ m d) (hn : 2 ≤ m n) :
    pow_mod o a d n m o = m a ^ (m d).toNat % m n ∧
      0 ≤ pow_mod o a d n m o ∧ pow_mod o a d n m o ≤ m n - 1 ∧
      ∀ v, v ≠ o → pow_mod o a d n m v = m v := by
  have hpow : pow_mod o a d n m o = m a ^ (m d).toNat % m n := by
    rw [pow_mod_eq_update ho, Function.update_self, pow_mod_eq _ hd hn]
  refine ⟨hpow, ?_, ?_, ?_⟩
  · rw [hpow]
    exact Int.emod_nonneg _ (by omega)
  · rw [hpow]
    exact Int.le_sub_one_of_lt (Int.emod_lt_of_pos _ (by omega))
  · intro v hv
    rw [pow_mod_eq_update ho, Function.update_of_ne hv]

/-- The squaring of `-3` modulo 7, into the same variable. -/
theorem pow_mod_output_square :
    pow_mod 0 0 1 2 ![-3, 2, 7] 0 = (-3) ^ 2 % 7 ∧
      0 ≤ pow_mod 0 0 1 2 ![-3, 2, 7] 0 ∧ pow_mod 0 0 1 2 ![-3, 2, 7] 0 ≤ 7 - 1 ∧
      ∀ v, v ≠ 0 → pow_mod 0 0 1 2 ![-3, 2, 7] v = (![-3, 2, 7] : Fin 3 → ℤ) v :=
  pow_mod_output ![-3, 2, 7] 0 0 1 2 (by decide) (by decide) (by decide)

/-- The squarings of `is_prime` on its variables. -/
theorem squareLoop_eq {y two : ι} (hn : n ≠ y) (hd : d ≠ y) (htwo : two ≠ y) (hn₂ : n ≠ two)
    (hd₂ : d ≠ two) (s : ℕ) (m : ι → ℤ) :
    squareLoop y two n d s m = SchmidtSamoa.squareLoop (m n) (m d) s (m y) := by
  induction s generalizing m with
  | zero => rfl
  | succ s ih =>
      rw [squareLoop, SchmidtSamoa.squareLoop, ih, pow_mod_eq_update hn]
      simp [mpz_set_ui, hn, hd, hn₂, hd₂, htwo.symm]

end Calls

end FavoriteAssignments.SchmidtSamoa.Mpz
