import FavoriteAssignments.SchmidtSamoa.Keys

/-! # Primes

The search for primes of `numtheory.c` and `ss_make_pub`. Every draw goes through
GMP, and every generator is seeded with the clock. -/

namespace FavoriteAssignments.SchmidtSamoa

/-- The random numbers of GMP, with the ranges of its manual. `gmp_randinit_default` is
`gmp_randinit_mt`. -/
structure Gmp (G : Type*) where
  /-- `gmp_randinit_mt` and `gmp_randseed_ui`. -/
  randseed_ui : ℕ → G
  rrandomb : G → ℕ → ℕ × G
  urandomm : G → ℕ → ℕ × G
  rrandomb_ge : ∀ state bits, 0 < bits → 2 ^ (bits - 1) ≤ (rrandomb state bits).1
  rrandomb_lt : ∀ state bits, (rrandomb state bits).1 < 2 ^ bits
  urandomm_lt : ∀ state n, 0 < n → (urandomm state n).1 < n

/-- What changes while a key is made: the `state` of `randstate.c`, and how many times
`time(NULL)` was called. -/
structure Run (G : Type*) where
  state : G
  readings : ℕ
  deriving DecidableEq

/-! ## The search -/

/-- The loop of `is_prime` that halves `r`, which is not zero there. -/
def halveLoop (r : ℤ) (s : ℕ) : ℤ × ℕ :=
  if r % 2 = 0 ∧ 0 < r then halveLoop (r / 2) (s + 1) else (r, s)
termination_by r.toNat
decreasing_by omega

/-- The loop of `is_prime` over `j`. -/
def squareLoop (n d : ℤ) : ℕ → ℤ → Bool
  | 0, _ => false
  | s + 1, y => if y = d then true else squareLoop n d s (pow_mod y 2 n)

/-- One base of the Miller-Rabin test: `false` is the `return false` of the loop. -/
def passes (n d r : ℤ) (s : ℕ) (a : ℤ) : Bool :=
  if a ≤ 1 ∨ a ≥ d then true
  else
    let y := pow_mod a r n
    let prob_prime := decide (y = 1) || squareLoop n d s y
    prob_prime && decide (gcd a n = 1)

section Search

variable {G : Type*} (gmp : Gmp G) (time : ℕ → ℕ)

/-- The loop of `is_prime` over the bases. Each is the first draw of a generator of its
own, which is seeded with `time(NULL)` and shadows the global one. -/
def basesLoop (n d r : ℤ) (s : ℕ) : ℕ → ℕ → Bool × ℕ
  | 0, readings => (true, readings)
  | iters + 1, readings =>
      let state := gmp.randseed_ui (time readings)
      let a := (gmp.urandomm state n.toNat).1
      if passes n d r s a then basesLoop n d r s iters (readings + 1)
      else (false, readings + 1)

/-- Whether `n` passes, and the calls of `time` after it. -/
def is_prime (n : ℤ) (iters readings : ℕ) : Bool × ℕ :=
  if n < 2 then (false, readings)
  else if n = 2 then (true, readings)
  else if n % 2 = 0 then (false, readings)
  else
    let d := n - 1
    let (r, s) := halveLoop d 0
    basesLoop gmp time n d r s iters readings

/-- The `while (true)` of `make_prime`, with fuel for its turns. -/
def primeLoop (bits iters : ℕ) : ℕ → Run G → Option (ℕ × Run G)
  | 0, _ => none
  | fuel + 1, run =>
      let (p, state) := gmp.rrandomb run.state bits
      let p := p ||| 2 ^ (bits - 1)
      let (prime, readings) := is_prime gmp time p iters run.readings
      if prime then some (p, ⟨state, readings⟩)
      else primeLoop bits iters fuel ⟨state, readings⟩

/-- `make_prime` seeds the global state anew. -/
def make_prime (bits iters fuel : ℕ) (run : Run G) : Option (ℕ × Run G) :=
  primeLoop gmp time bits iters fuel ⟨gmp.randseed_ui (time run.readings), run.readings + 1⟩

/-- The primes `p`, `q` and the public modulus `n`. `random` is what `random()` returns;
below 5 bits the division by `nbits / 5` fails. -/
def ss_make_pub (nbits iters random fuel : ℕ) (run : Run G) : Option ((ℕ × ℕ × ℕ) × Run G) :=
  if nbits / 5 = 0 then none
  else do
    let pits := random % (nbits / 5) + nbits / 5
    let qits := nbits - 2 * pits
    let (q, run) ← make_prime gmp time qits iters fuel run
    let (p, run) ← make_prime gmp time pits iters fuel run
    some ((p, q, p * p * q), run)

end Search

/-! ## What it finds -/

section Found

variable {G : Type*} {gmp : Gmp G} {time : ℕ → ℕ} {bits iters fuel p : ℕ} {run run' : Run G}

theorem is_prime_two_le {n : ℤ} {readings : ℕ} (h : (is_prime gmp time n iters readings).1 = true) :
    2 ≤ n := by
  unfold is_prime at h
  split at h
  · simp at h
  · omega

theorem primeLoop_spec (h : primeLoop gmp time bits iters fuel run = some (p, run'))
    (hbits : 0 < bits) : 2 ≤ p ∧ p < 2 ^ bits := by
  induction fuel generalizing run with
  | zero => simp [primeLoop] at h
  | succ fuel ih =>
      simp only [primeLoop] at h
      split at h
      · rename_i hprime
        simp only [Option.some.injEq, Prod.mk.injEq] at h
        obtain ⟨rfl, -⟩ := h
        have htwo := is_prime_two_le hprime
        have htop : 2 ^ (bits - 1) < 2 ^ bits := Nat.pow_lt_pow_right (by norm_num) (by omega)
        exact ⟨by exact_mod_cast htwo, Nat.or_lt_two_pow (gmp.rrandomb_lt run.state bits) htop⟩
      · exact ih h

theorem make_prime_spec (h : make_prime gmp time bits iters fuel run = some (p, run'))
    (hbits : 0 < bits) : 2 ≤ p ∧ p < 2 ^ bits :=
  primeLoop_spec h hbits

variable {nbits random q n : ℕ}

/-- The sizes of the two primes leave room for both. -/
theorem pits_qits (h : nbits / 5 ≠ 0) (random : ℕ) :
    nbits / 5 ≤ random % (nbits / 5) + nbits / 5 ∧
      nbits / 5 + 2 ≤ nbits - 2 * (random % (nbits / 5) + nbits / 5) := by
  have hlt := Nat.mod_lt random (Nat.pos_of_ne_zero h)
  omega

/-- A run of `ss_make_pub` is a run of `make_prime` for `q`, then one for `p`. -/
theorem ss_make_pub_cases
    (h : ss_make_pub gmp time nbits iters random fuel run = some ((p, q, n), run')) :
    nbits / 5 ≠ 0 ∧ n = p * p * q ∧ ∃ mid,
      make_prime gmp time (nbits - 2 * (random % (nbits / 5) + nbits / 5)) iters fuel run =
        some (q, mid) ∧
      make_prime gmp time (random % (nbits / 5) + nbits / 5) iters fuel mid = some (p, run') := by
  unfold ss_make_pub at h
  split at h
  · simp at h
  · rename_i hbits
    simp only [Option.bind_eq_bind, Option.bind_eq_some_iff, Prod.exists, Option.some.injEq,
      Prod.mk.injEq] at h
    obtain ⟨q', mid, hq, p', run'', hp, ⟨rfl, rfl, rfl⟩, rfl⟩ := h
    exact ⟨hbits, rfl, mid, hq, hp⟩

theorem ss_make_pub_spec
    (h : ss_make_pub gmp time nbits iters random fuel run = some ((p, q, n), run')) :
    2 ≤ p ∧ 2 ≤ q ∧ n = p * p * q := by
  obtain ⟨hbits, hn, mid, hq, hp⟩ := ss_make_pub_cases h
  have hsizes := pits_qits hbits random
  exact ⟨(make_prime_spec hp (by omega)).1, (make_prime_spec hq (by omega)).1, hn⟩

end Found

end FavoriteAssignments.SchmidtSamoa
