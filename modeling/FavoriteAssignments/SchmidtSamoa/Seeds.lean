import FavoriteAssignments.SchmidtSamoa.Keygen
import Mathlib.Order.Monotone.Defs

/-! # Seeds

Which key `keygen` makes depends on the clock and not on `-s`: the state that
`randstate_init` seeds is seeded again before the first draw. Two runs are compared over
every generator that GMP could have. -/

namespace FavoriteAssignments.SchmidtSamoa

/-- Whatever the generators of GMP compute from their seeds, runs with the same options
make the same keys when their clocks read `time` and `time'`. -/
def Reproducible (bits iters random : ℕ) (time time' : ℕ → ℕ) : Prop :=
  ∀ (G : Type) (gmp : Gmp G) (seed : ℕ) (username : List Char) (keys : Keys),
    (∃ fuel, keygen gmp time bits iters (some seed) username random fuel = some keys) ↔
      ∃ fuel, keygen gmp time' bits iters (some seed) username random fuel = some keys

/-! ## Runs that read the same times -/

section Agree

variable {G : Type} {gmp : Gmp G} {time time' : ℕ → ℕ} {bits iters random fuel readings p : ℕ}
  {n : ℤ} {run run' : Run G}

/-- The seed of the command line makes no difference. -/
theorem keygen_seed (seed seed' : Option ℕ) (username : List Char) :
    keygen gmp time bits iters seed username random fuel =
      keygen gmp time bits iters seed' username random fuel := rfl

theorem basesLoop_congr {d r : ℤ} {s : ℕ} (h : iters ≠ 0 → ∀ i, readings ≤ i → time i = time' i) :
    basesLoop gmp time n d r s iters readings = basesLoop gmp time' n d r s iters readings := by
  induction iters generalizing readings with
  | zero => rfl
  | succ iters ih =>
      have hall := h (Nat.succ_ne_zero iters)
      rw [basesLoop, basesLoop, hall readings le_rfl, ih fun _ i hi => hall i (by omega)]

theorem is_prime_congr (h : iters ≠ 0 → ∀ i, readings ≤ i → time i = time' i) :
    is_prime gmp time n iters readings = is_prime gmp time' n iters readings := by
  simp only [is_prime, basesLoop_congr h]

theorem basesLoop_readings {d r : ℤ} {s : ℕ} :
    readings ≤ (basesLoop gmp time n d r s iters readings).2 ∧
      (iters = 0 → (basesLoop gmp time n d r s iters readings).2 = readings) := by
  induction iters generalizing readings with
  | zero => simp [basesLoop]
  | succ iters ih =>
      have hlater : readings + 1 ≤ (basesLoop gmp time n d r s iters (readings + 1)).2 := ih.1
      simp only [basesLoop]
      split
      · exact ⟨by omega, by simp⟩
      · simp

theorem is_prime_readings :
    readings ≤ (is_prime gmp time n iters readings).2 ∧
      (iters = 0 → (is_prime gmp time n iters readings).2 = readings) := by
  simp only [is_prime]
  split_ifs
  · simp
  · simp
  · simp
  · exact basesLoop_readings

theorem primeLoop_congr (h : iters ≠ 0 → ∀ i, run.readings ≤ i → time i = time' i) :
    primeLoop gmp time bits iters fuel run = primeLoop gmp time' bits iters fuel run := by
  induction fuel generalizing run with
  | zero => rfl
  | succ fuel ih =>
      have hlater : ∀ c : ℤ, run.readings ≤ (is_prime gmp time' c iters run.readings).2 :=
        fun _ => is_prime_readings.1
      simp only [primeLoop, is_prime_congr h]
      rw [ih fun hiters i hi => h hiters i ((hlater _).trans hi)]

theorem primeLoop_readings (h : primeLoop gmp time bits iters fuel run = some (p, run')) :
    run.readings ≤ run'.readings ∧ (iters = 0 → run'.readings = run.readings) := by
  induction fuel generalizing run with
  | zero => simp [primeLoop] at h
  | succ fuel ih =>
      have hturn : ∀ c : ℤ, run.readings ≤ (is_prime gmp time c iters run.readings).2 ∧
          (iters = 0 → (is_prime gmp time c iters run.readings).2 = run.readings) :=
        fun _ => is_prime_readings
      simp only [primeLoop] at h
      split at h
      · simp only [Option.some.injEq, Prod.mk.injEq] at h
        obtain ⟨-, rfl⟩ := h
        exact hturn _
      · obtain ⟨hle, hzero⟩ := ih h
        exact ⟨(hturn _).1.trans hle, fun hiters => (hzero hiters).trans ((hturn _).2 hiters)⟩

theorem make_prime_congr (hseed : time run.readings = time' run.readings)
    (h : iters ≠ 0 → ∀ i, run.readings < i → time i = time' i) :
    make_prime gmp time bits iters fuel run = make_prime gmp time' bits iters fuel run := by
  rw [make_prime, make_prime, hseed]
  exact primeLoop_congr h

theorem make_prime_readings (h : make_prime gmp time bits iters fuel run = some (p, run')) :
    run.readings + 1 ≤ run'.readings ∧ (iters = 0 → run'.readings = run.readings + 1) :=
  primeLoop_readings h

/-- The readings of a run: without a Miller-Rabin base only the two seeds. -/
theorem ss_make_pub_congr
    (h : ∀ i, run.readings ≤ i → (iters = 0 → i ≤ run.readings + 1) → time i = time' i) :
    ss_make_pub gmp time bits iters random fuel run =
      ss_make_pub gmp time' bits iters random fuel run := by
  unfold ss_make_pub
  split
  · rfl
  · simp only [Option.bind_eq_bind]
    rw [make_prime_congr (h _ le_rfl (by omega)) fun hiters i hi => h i hi.le (by omega)]
    refine Option.bind_congr fun drawn hq => ?_
    obtain ⟨q, mid⟩ := drawn
    obtain ⟨hlater, hzero⟩ := make_prime_readings hq
    simp only
    rw [make_prime_congr (h _ (by omega) fun hiters => (hzero hiters).le)
      fun hiters i hi => h i (by omega) (by omega)]

theorem keygen_congr {seed : Option ℕ} {username : List Char}
    (h : ∀ i, 1 ≤ i → (iters = 0 → i ≤ 2) → time i = time' i) :
    keygen gmp time bits iters seed username random fuel =
      keygen gmp time' bits iters seed username random fuel := by
  have hpub : ss_make_pub gmp time bits iters random fuel (randstate_init gmp time seed) =
      ss_make_pub gmp time' bits iters random fuel (randstate_init gmp time' seed) :=
    ss_make_pub_congr h
  rw [keygen, keygen, hpub]

end Agree

/-! ## Accepted and rejected candidates -/

section Candidates

variable {G : Type} {gmp : Gmp G} {time : ℕ → ℕ} {bits iters fuel readings : ℕ} {run : Run G}

/-- A candidate of the right size has its highest bit already. -/
theorem or_highest_bit {c : ℕ} (hbits : 0 < bits) (hge : 2 ^ (bits - 1) ≤ c) (hlt : c < 2 ^ bits) :
    c ||| 2 ^ (bits - 1) = c := by
  have hbit : c.testBit (bits - 1) = true :=
    Nat.testBit_of_two_pow_le_and_two_pow_add_one_gt hge (by rwa [Nat.sub_add_cancel hbits])
  refine Nat.eq_of_testBit_eq fun i => ?_
  rw [Nat.testBit_or, Nat.testBit_two_pow]
  by_cases hi : bits - 1 = i
  · simp [← hi, hbit]
  · simp [hi]

/-- The bases 0 and 1 are passed over. -/
theorem basesLoop_small {n d r : ℤ} {s : ℕ}
    (h : ∀ i, readings ≤ i → (gmp.urandomm (gmp.randseed_ui (time i)) n.toNat).1 ≤ 1) :
    (basesLoop gmp time n d r s iters readings).1 = true := by
  induction iters generalizing readings with
  | zero => rfl
  | succ iters ih =>
      have hpass : passes n d r s ((gmp.urandomm (gmp.randseed_ui (time readings)) n.toNat).1 : ℕ) = true :=
        if_pos (Or.inl (by exact_mod_cast h readings le_rfl))
      simp only [basesLoop, hpass, if_true]
      exact ih fun i hi => h i (by omega)

theorem is_prime_small {c : ℕ} (hc : c = 2 ∨ 3 ≤ c ∧ c % 2 = 1)
    (h : ∀ i, readings ≤ i → (gmp.urandomm (gmp.randseed_ui (time i)) c).1 ≤ 1) :
    (is_prime gmp time c iters readings).1 = true := by
  unfold is_prime
  rcases hc with rfl | ⟨hthree, hodd⟩
  · simp
  · rw [if_neg (by omega), if_neg (by omega), if_neg (by omega)]
    exact basesLoop_small (by simpa using h)

theorem squareLoop_three {n y : ℤ} {s : ℕ} (hn : 1 < n) (h3 : 3 ∣ n) (hy : 3 ∣ y) :
    squareLoop n (n - 1) s y = false := by
  induction s generalizing y with
  | zero => rfl
  | succ s ih =>
      have hne : y ≠ n - 1 := by omega
      have hsquare : 3 ∣ pow_mod y 2 n := by
        rw [pow_mod_eq y (by norm_num) hn, Int.dvd_iff_emod_eq_zero, Int.emod_emod_of_dvd _ h3]
        exact Int.emod_eq_zero_of_dvd (dvd_pow hy (by norm_num))
      rw [squareLoop, if_neg hne, ih hsquare]

/-- The base 3 tells a multiple of 3. -/
theorem passes_three {n r : ℤ} {s : ℕ} (hn : 4 < n) (h3 : 3 ∣ n) (hr : 0 < r) :
    passes n (n - 1) r s 3 = false := by
  have hy : 3 ∣ pow_mod 3 r n := by
    rw [pow_mod_eq 3 hr.le (by omega), Int.dvd_iff_emod_eq_zero, Int.emod_emod_of_dvd _ h3]
    exact Int.emod_eq_zero_of_dvd (dvd_pow_self 3 (by omega))
  have hone : pow_mod 3 r n ≠ 1 := by omega
  rw [passes, if_neg (by omega)]
  simp [hone, squareLoop_three (by omega) h3 hy]

theorem halveLoop_pos {r : ℤ} {s : ℕ} (h : 0 < r) : 0 < (halveLoop r s).1 := by
  fun_induction halveLoop r s with
  | case1 r s hloop ih => exact ih (by omega)
  | case2 r s _ => exact h

theorem is_prime_three {c : ℕ} (hc : 4 < c) (hodd : c % 2 = 1) (h3 : 3 ∣ c) (hiters : iters ≠ 0)
    (h : (gmp.urandomm (gmp.randseed_ui (time readings)) c).1 = 3) :
    is_prime gmp time c iters readings = (false, readings + 1) := by
  obtain ⟨iters, rfl⟩ := Nat.exists_eq_succ_of_ne_zero hiters
  have hpass := passes_three (s := (halveLoop (c - 1) 0).2) (by exact_mod_cast hc)
    (Int.natCast_dvd_natCast.mpr h3) (halveLoop_pos (s := 0) (by omega : (0 : ℤ) < c - 1))
  unfold is_prime
  rw [if_neg (by omega), if_neg (by omega), if_neg (by omega)]
  simp [basesLoop, h, hpass]

/-- A first candidate that is accepted is the prime. -/
theorem make_prime_first {c : ℕ} (hbits : 0 < bits)
    (hc : (gmp.rrandomb (gmp.randseed_ui (time run.readings)) bits).1 = c)
    (hodd : c = 2 ∨ 3 ≤ c ∧ c % 2 = 1)
    (h : ∀ i, run.readings < i → (gmp.urandomm (gmp.randseed_ui (time i)) c).1 ≤ 1) :
    ∃ run', make_prime gmp time bits iters (fuel + 1) run = some (c, run') := by
  have htop : c ||| 2 ^ (bits - 1) = c :=
    or_highest_bit hbits (hc ▸ gmp.rrandomb_ge _ _ hbits) (hc ▸ gmp.rrandomb_lt _ _)
  have hprime : (is_prime gmp time c iters (run.readings + 1)).1 = true := is_prime_small hodd h
  simp [make_prime, primeLoop, hc, htop, hprime]

end Candidates

/-! ## Generators that show a difference -/

theorem two_mul_pred_pow {bits : ℕ} (hbits : 0 < bits) : 2 ^ bits = 2 * 2 ^ (bits - 1) := by
  rw [← Nat.pow_succ', Nat.succ_eq_add_one, Nat.sub_add_cancel hbits]

/-- The least candidate that is 2 or odd. -/
def lowCandidate (bits : ℕ) : ℕ :=
  if bits ≤ 1 then 2 ^ bits - 1 else if bits = 2 then 2 else 2 ^ (bits - 1) + 1

/-- All bits set. -/
def highCandidate (bits : ℕ) : ℕ := 2 ^ bits - 1

theorem highCandidate_ge {bits : ℕ} (hbits : 0 < bits) : 2 ^ (bits - 1) ≤ highCandidate bits := by
  have hpos := Nat.two_pow_pos (bits - 1)
  have htwice := two_mul_pred_pow hbits
  simp only [highCandidate]
  omega

theorem highCandidate_lt (bits : ℕ) : highCandidate bits < 2 ^ bits :=
  Nat.sub_lt (Nat.two_pow_pos bits) Nat.one_pos

theorem highCandidate_odd {bits : ℕ} (hbits : 2 ≤ bits) :
    3 ≤ highCandidate bits ∧ highCandidate bits % 2 = 1 := by
  have hfour : 2 ^ 2 ≤ 2 ^ bits := Nat.pow_le_pow_right (by norm_num) hbits
  have htwice := two_mul_pred_pow (by omega : 0 < bits)
  simp only [highCandidate]
  omega

theorem lowCandidate_spec {bits : ℕ} (hbits : 2 ≤ bits) :
    2 ^ (bits - 1) ≤ lowCandidate bits ∧ lowCandidate bits < highCandidate bits ∧
      (lowCandidate bits = 2 ∨ 3 ≤ lowCandidate bits ∧ lowCandidate bits % 2 = 1) := by
  rcases hbits.eq_or_lt with rfl | hmore
  · decide
  · have htwice := two_mul_pred_pow (by omega : 0 < bits)
    have hhalf := two_mul_pred_pow (by omega : 0 < bits - 1)
    have hfour : 2 ^ 1 ≤ 2 ^ (bits - 1 - 1) := Nat.pow_le_pow_right (by norm_num) (by omega)
    simp only [lowCandidate, highCandidate, if_neg (show ¬ bits ≤ 1 by omega),
      if_neg (show bits ≠ 2 by omega)]
    omega

/-- A generator that tells the seed `t` from the others by its first candidate. Its bases
are all passed over. -/
def tellingGmp (t : ℕ) : Gmp ℕ where
  randseed_ui seed := seed
  rrandomb seed bits := (if seed = t then lowCandidate bits else highCandidate bits, seed)
  urandomm seed n := (min 1 (n - 1), seed)
  rrandomb_ge seed bits hbits := by
    dsimp only
    split
    · rcases (show 1 ≤ bits from hbits).eq_or_lt with rfl | hmore
      · decide
      · exact (lowCandidate_spec hmore).1
    · exact highCandidate_ge hbits
  rrandomb_lt seed bits := by
    dsimp only
    split
    · rcases le_or_gt bits 1 with hsmall | hmore
      · simp only [lowCandidate, if_pos hsmall]
        exact highCandidate_lt bits
      · exact (lowCandidate_spec hmore).2.1.trans (highCandidate_lt bits)
    · exact highCandidate_lt bits
  urandomm_lt seed n hn := by
    dsimp only
    omega

/-- What `tellingGmp t` makes of the seed `s`. -/
def told (t s bits : ℕ) : ℕ := if s = t then lowCandidate bits else highCandidate bits

theorem told_inj {t s bits : ℕ} (hbits : 2 ≤ bits) (h : told t s bits = told t t bits) : s = t := by
  have hlow := (lowCandidate_spec hbits).2.1
  by_contra hne
  simp only [told, if_neg hne, if_true] at h
  omega

section Telling

variable {time time' : ℕ → ℕ} {bits iters random fuel : ℕ}

theorem make_prime_telling {run : Run ℕ} (t : ℕ) (hbits : 2 ≤ bits) :
    ∃ run', make_prime (tellingGmp t) time bits iters (fuel + 1) run =
      some (told t (time run.readings) bits, run') := by
  refine make_prime_first (by omega) rfl ?_ fun i _ => by simp [tellingGmp]
  unfold told
  split
  · exact (lowCandidate_spec hbits).2.2
  · exact Or.inr (highCandidate_odd hbits)

/-- The primes that `tellingGmp` leads to. The second seed is known where no base is drawn. -/
theorem ss_make_pub_telling (time : ℕ → ℕ) (iters fuel : ℕ) (run : Run ℕ) (t : ℕ) {pits qits : ℕ}
    (hbits : 10 ≤ bits) (hpits : pits = random % (bits / 5) + bits / 5)
    (hqits : qits = bits - 2 * pits) :
    ∃ p run', ss_make_pub (tellingGmp t) time bits iters random (fuel + 1) run =
        some ((p, told t (time run.readings) qits, p * p * told t (time run.readings) qits), run') ∧
      (iters = 0 → p = told t (time (run.readings + 1)) pits) := by
  obtain ⟨hp, hq⟩ := pits_qits (show bits / 5 ≠ 0 by omega) random
  obtain ⟨mid, hfirst⟩ : ∃ mid, make_prime (tellingGmp t) time qits iters (fuel + 1) run =
      some (told t (time run.readings) qits, mid) := make_prime_telling t (by omega)
  obtain ⟨run', hsecond⟩ : ∃ run', make_prime (tellingGmp t) time pits iters (fuel + 1) mid =
      some (told t (time mid.readings) pits, run') := make_prime_telling t (by omega)
  refine ⟨told t (time mid.readings) pits, run', ?_, fun hiters => ?_⟩
  · simp [ss_make_pub, ← hpits, ← hqits, hfirst, hsecond, show ¬ bits < 5 by omega]
  · rw [(make_prime_readings hfirst).2 hiters]

theorem Reproducible.symm (h : Reproducible bits iters random time time') :
    Reproducible bits iters random time' time :=
  fun G gmp seed username keys => (h G gmp seed username keys).symm

/-- The primes of one run are those of the other. -/
theorem Reproducible.primes (h : Reproducible bits iters random time time') {G : Type} {gmp : Gmp G}
    {p q n : ℕ} {run : Run G} {seed : ℕ}
    (hpub : ss_make_pub gmp time bits iters random fuel (randstate_init gmp time (some seed)) =
      some ((p, q, n), run)) :
    ∃ fuel' run', ss_make_pub gmp time' bits iters random fuel'
      (randstate_init gmp time' (some seed)) = some ((p, q, n), run') := by
  have hmade : ∃ keys, keygen gmp time bits iters (some seed) [] random fuel = some keys ∧
      keys.p = p ∧ keys.q = q ∧ keys.n = n := by
    simp [keygen, hpub, ss_write_pub, gmp_fprintf]
  obtain ⟨keys, hkeys, rfl, rfl, rfl⟩ := hmade
  obtain ⟨fuel', hkeys'⟩ := (h G gmp seed [] keys).mp ⟨fuel, hkeys⟩
  simp only [keygen, Option.bind_eq_bind, Option.bind_eq_some_iff, Prod.exists,
    Option.some.injEq] at hkeys'
  obtain ⟨p', q', n', run', hpub', file, -, rfl⟩ := hkeys'
  exact ⟨fuel', run', hpub'⟩

/-- What `tellingGmp` tells does not depend on the fuel. -/
theorem told_of_ss_make_pub {run run' : Run ℕ} {t p q n pits qits : ℕ} (hbits : 10 ≤ bits)
    (hpits : pits = random % (bits / 5) + bits / 5) (hqits : qits = bits - 2 * pits)
    (h : ss_make_pub (tellingGmp t) time bits iters random fuel run = some ((p, q, n), run')) :
    q = told t (time run.readings) qits ∧ (iters = 0 → p = told t (time (run.readings + 1)) pits) := by
  cases fuel with
  | zero =>
      obtain ⟨-, -, mid, hq, -⟩ := ss_make_pub_cases h
      simp [make_prime, primeLoop] at hq
  | succ fuel =>
      obtain ⟨p', run'', hpub, hp⟩ := ss_make_pub_telling time iters fuel run t hbits hpits hqits
      rw [hpub] at h
      simp only [Option.some.injEq, Prod.mk.injEq] at h
      obtain ⟨⟨rfl, rfl, -⟩, -⟩ := h
      exact ⟨rfl, hp⟩

/-- Reproducible keys need the same seed for `q`, and without bases the same for `p`. -/
theorem Reproducible.seeds (h : Reproducible bits iters random time time') (hbits : 10 ≤ bits) :
    time 1 = time' 1 ∧ (iters = 0 → time 2 = time' 2) := by
  obtain ⟨hpits, hqits⟩ := pits_qits (show bits / 5 ≠ 0 by omega) random
  have hsame : ∀ t, ∃ p q, (q = told t (time 1) (bits - 2 * (random % (bits / 5) + bits / 5)) ∧
      (iters = 0 → p = told t (time 2) (random % (bits / 5) + bits / 5))) ∧
      q = told t (time' 1) (bits - 2 * (random % (bits / 5) + bits / 5)) ∧
      (iters = 0 → p = told t (time' 2) (random % (bits / 5) + bits / 5)) := by
    intro t
    obtain ⟨p, run, hpub, -⟩ := ss_make_pub_telling time iters 0
      (randstate_init (tellingGmp t) time (some 0)) t hbits rfl rfl
    obtain ⟨fuel, run', hpub'⟩ := h.primes hpub
    exact ⟨_, _, told_of_ss_make_pub hbits rfl rfl hpub, told_of_ss_make_pub hbits rfl rfl hpub'⟩
  constructor
  · obtain ⟨p, q, ⟨hq, -⟩, hq', -⟩ := hsame (time' 1)
    exact told_inj (by omega) (hq.symm.trans hq')
  · intro hiters
    obtain ⟨p, q, ⟨-, hp⟩, -, hp'⟩ := hsame (time' 2)
    exact told_inj (by omega) ((hp hiters).symm.trans (hp' hiters))

end Telling

/-! ## A generator that waits for a time -/

/-- An odd multiple of 3 of the given size. -/
def tripleCandidate (bits : ℕ) : ℕ := 2 ^ (bits - 1) + 1 + 2 * ((2 ^ (bits - 1) + 1) % 3)

theorem tripleCandidate_spec {bits : ℕ} (hbits : 4 ≤ bits) :
    2 ^ (bits - 1) ≤ tripleCandidate bits ∧ tripleCandidate bits < highCandidate bits ∧
      8 < tripleCandidate bits ∧ tripleCandidate bits % 2 = 1 ∧ 3 ∣ tripleCandidate bits := by
  have htwice := two_mul_pred_pow (by omega : 0 < bits)
  have hhalf := two_mul_pred_pow (by omega : 0 < bits - 1)
  have height : 2 ^ 3 ≤ 2 ^ (bits - 1) := Nat.pow_le_pow_right (by norm_num) (by omega)
  simp only [tripleCandidate, highCandidate]
  omega

/-- Candidates of `size` bits are multiples of 3 for `turns` turns and one more, and the
base 3 is drawn for them before the time `M`. -/
def waitingGmp (size turns M : ℕ) (hsize : 4 ≤ size) : Gmp (ℕ × ℕ) where
  randseed_ui seed := (seed, 0)
  rrandomb state bits :=
    (if bits = size ∧ state.2 ≤ turns then tripleCandidate size else highCandidate bits,
      (state.1, state.2 + 1))
  urandomm state n := (if n = tripleCandidate size ∧ state.1 < M then 3 else min 1 (n - 1), state)
  rrandomb_ge state bits hbits := by
    dsimp only
    split_ifs with h
    · rw [h.1]
      exact (tripleCandidate_spec hsize).1
    · exact highCandidate_ge hbits
  rrandomb_lt state bits := by
    dsimp only
    split_ifs with h
    · rw [h.1]
      exact (tripleCandidate_spec hsize).2.1.trans (highCandidate_lt size)
    · exact highCandidate_lt bits
  urandomm_lt state n hn := by
    have htriple := (tripleCandidate_spec hsize).2.2.1
    dsimp only
    split_ifs with h
    · omega
    · omega

section Waiting

variable {time : ℕ → ℕ} {size turns M iters fuel k q t : ℕ} {hsize : 4 ≤ size}
  {run : Run (ℕ × ℕ)}

/-- Before the time `M` each of the first turns is rejected at its first base. -/
theorem primeLoop_waits (hiters : iters ≠ 0) (hk : k ≤ turns) (hbefore : time (k + 2) < M) :
    primeLoop (waitingGmp size turns M hsize) time size iters (fuel + 1) ⟨(t, k), k + 2⟩ =
      primeLoop (waitingGmp size turns M hsize) time size iters fuel ⟨(t, k + 1), k + 1 + 2⟩ := by
  obtain ⟨hge, hlt, height, hodd, h3⟩ := tripleCandidate_spec hsize
  have htop := or_highest_bit (by omega) hge (hlt.trans (highCandidate_lt size))
  have hdraw : ((waitingGmp size turns M hsize).urandomm
      ((waitingGmp size turns M hsize).randseed_ui (time (k + 2))) (tripleCandidate size)).1 = 3 :=
    if_pos ⟨rfl, hbefore⟩
  have hreject := is_prime_three (by omega) hodd h3 hiters hdraw
  have hcandidate : (waitingGmp size turns M hsize).rrandomb (t, k) size =
      (tripleCandidate size, (t, k + 1)) := by
    simp [waitingGmp, hk]
  simp [primeLoop, hcandidate, htop, hreject]

/-- A run that reads `M` from the last of these turns on takes the multiple of 3. -/
theorem primeLoop_after (hsize : 4 ≤ size) (t : ℕ) (hiters : iters ≠ 0)
    (hbefore : ∀ i, 2 ≤ i → i < turns + 2 → time i < M)
    (hafter : ∀ i, turns + 2 ≤ i → M ≤ time i) (rest : ℕ) (hk : k + rest = turns) :
    ∃ run', primeLoop (waitingGmp size turns M hsize) time size iters (rest + 1) ⟨(t, k), k + 2⟩ =
      some (tripleCandidate size, run') ∧ turns + 2 ≤ run'.readings := by
  induction rest generalizing k with
  | zero =>
      obtain ⟨hge, hlt, height, hodd, h3⟩ := tripleCandidate_spec hsize
      have htop := or_highest_bit (by omega) hge (hlt.trans (highCandidate_lt size))
      have hprime : (is_prime (waitingGmp size turns M hsize) time (tripleCandidate size : ℕ) iters
          (k + 2)).1 = true := by
        refine is_prime_small (Or.inr ⟨by omega, hodd⟩) fun i hi => ?_
        have := hafter i (by omega)
        simp [waitingGmp, not_lt.mpr this]
      have hlater : k + 2 ≤ (is_prime (waitingGmp size turns M hsize) time (tripleCandidate size : ℕ)
          iters (k + 2)).2 := is_prime_readings.1
      have hcandidate : (waitingGmp size turns M hsize).rrandomb (t, k) size =
          (tripleCandidate size, (t, k + 1)) := by
        simp [waitingGmp, show k ≤ turns by omega]
      simp only [primeLoop, hcandidate, htop, hprime, if_true]
      exact ⟨_, rfl, by simpa [← hk] using hlater⟩
  | succ rest ih =>
      rw [primeLoop_waits hiters (by omega) (hbefore _ (by omega) (by omega))]
      exact ih (by omega)

/-- A run that reads less in all of these turns takes another candidate. -/
theorem primeLoop_before (hiters : iters ≠ 0) (hbefore : ∀ i ≤ turns + 2, time i < M)
    (hk : k ≤ turns + 1)
    (h : primeLoop (waitingGmp size turns M hsize) time size iters fuel ⟨(t, k), k + 2⟩ =
      some (q, run)) : q = highCandidate size := by
  induction fuel generalizing k with
  | zero => simp [primeLoop] at h
  | succ fuel ih =>
      rcases le_or_gt k turns with hturn | hturn
      · rw [primeLoop_waits hiters hturn (hbefore _ (by omega))] at h
        exact ih (by omega) h
      · have hodd := highCandidate_odd (by omega : 2 ≤ size)
        have htop := or_highest_bit (by omega) (highCandidate_ge (by omega)) (highCandidate_lt size)
        have hne := (tripleCandidate_spec hsize).2.1.ne'
        have hprime : (is_prime (waitingGmp size turns M hsize) time (highCandidate size : ℕ) iters
            (k + 2)).1 = true := by
          refine is_prime_small (Or.inr hodd) fun i hi => ?_
          simp [waitingGmp, hne]
        have hcandidate : (waitingGmp size turns M hsize).rrandomb (t, k) size =
            (highCandidate size, (t, k + 1)) := by
          simp [waitingGmp, show ¬ k ≤ turns by omega]
        simp only [primeLoop, hcandidate, htop, hprime, if_true, Option.some.injEq,
          Prod.mk.injEq] at h
        exact h.1.symm

/-- The key of a run that reads `M` from the last turn on: any draw for `p` passes. -/
theorem ss_make_pub_after {bits random pits : ℕ} (hsize : 4 ≤ size) (hbits : 10 ≤ bits)
    (hpits : pits = random % (bits / 5) + bits / 5) (hq : size = bits - 2 * pits)
    (hiters : iters ≠ 0) (hbefore : ∀ i, 2 ≤ i → i < turns + 2 → time i < M)
    (hafter : ∀ i, turns + 2 ≤ i → M ≤ time i) (seed : Option ℕ) :
    ∃ p n run', ss_make_pub (waitingGmp size turns M hsize) time bits iters random (turns + 1)
      (randstate_init (waitingGmp size turns M hsize) time seed) =
        some ((p, tripleCandidate size, n), run') := by
  obtain ⟨hp, -⟩ := pits_qits (show bits / 5 ≠ 0 by omega) random
  obtain ⟨hge, hlt, height, hodd, h3⟩ := tripleCandidate_spec hsize
  obtain ⟨mid, hfirst, hmid⟩ := primeLoop_after hsize (time 1) hiters hbefore hafter turns
    (Nat.zero_add turns)
  have hdraw : ∃ c, ((waitingGmp size turns M hsize).rrandomb
      ((waitingGmp size turns M hsize).randseed_ui (time mid.readings)) pits).1 = c ∧
      (c = 2 ∨ 3 ≤ c ∧ c % 2 = 1) := by
    refine ⟨_, rfl, Or.inr ?_⟩
    simp only [waitingGmp]
    split
    · exact ⟨by omega, hodd⟩
    · exact highCandidate_odd (by omega)
  obtain ⟨c, hc, hcodd⟩ := hdraw
  obtain ⟨run', hsecond⟩ : ∃ run', make_prime (waitingGmp size turns M hsize) time pits iters
      (turns + 1) mid = some (c, run') := by
    refine make_prime_first (by omega) hc hcodd fun i hi => ?_
    have := hafter i (by omega)
    simp [waitingGmp, not_lt.mpr this]
  refine ⟨c, c * c * tripleCandidate size, run', ?_⟩
  have hfirst' : make_prime (waitingGmp size turns M hsize) time size iters (turns + 1)
      (randstate_init (waitingGmp size turns M hsize) time seed) = some (tripleCandidate size, mid) :=
    hfirst
  simp [ss_make_pub, ← hpits, ← hq, hfirst', hsecond, show ¬ bits < 5 by omega]

/-- The key of a run that is behind `M` so long. -/
theorem ss_make_pub_before {bits random pits p n : ℕ}
    (hpits : pits = random % (bits / 5) + bits / 5) (hq : size = bits - 2 * pits)
    (hiters : iters ≠ 0) (hbefore : ∀ i ≤ turns + 2, time i < M) {seed : Option ℕ}
    (h : ss_make_pub (waitingGmp size turns M hsize) time bits iters random fuel
      (randstate_init (waitingGmp size turns M hsize) time seed) = some ((p, q, n), run)) :
    q = highCandidate size := by
  obtain ⟨-, -, mid, hfirst, -⟩ := ss_make_pub_cases h
  rw [← hpits, ← hq] at hfirst
  exact primeLoop_before hiters hbefore (Nat.zero_le _) hfirst

end Waiting

/-! ## Exactly the same times -/

section Main

variable {time time' : ℕ → ℕ} {bits iters random : ℕ}

/-- Where bases are drawn, a clock that is ahead can make another `q`: it passes a
candidate that the other one rejects. -/
theorem Reproducible.not_lt (h : Reproducible bits iters random time time') (hbits : 10 ≤ bits)
    (hiters : iters ≠ 0) (ht : Monotone time) (ht' : Monotone time') {turns : ℕ}
    (hagree : ∀ j, 1 ≤ j → j < turns + 2 → time j = time' j) :
    ¬ time (turns + 2) < time' (turns + 2) := by
  intro hlt
  obtain ⟨-, hqits⟩ := pits_qits (show bits / 5 ≠ 0 by omega) random
  have hsize : 4 ≤ bits - 2 * (random % (bits / 5) + bits / 5) := by omega
  have hbehind : ∀ j ≤ turns + 2, time j < time' (turns + 2) := fun j hj => (ht hj).trans_lt hlt
  have hahead : ∀ j, 2 ≤ j → j < turns + 2 → time' j < time' (turns + 2) :=
    fun j hj hjlt => hagree j (by omega) hjlt ▸ hbehind j hjlt.le
  obtain ⟨p, n, run, hpub⟩ := ss_make_pub_after hsize hbits rfl rfl hiters hahead
    (fun j hj => ht' hj) (some 0)
  obtain ⟨fuel, run', hpub'⟩ := h.symm.primes hpub
  have hhigh := ss_make_pub_before rfl rfl hiters hbehind hpub'
  exact absurd hhigh (tripleCandidate_spec hsize).2.1.ne

/-- Below ten bits no key is made: there is no prime of one bit. -/
theorem keygen_small {G : Type} {gmp : Gmp G} {seed : Option ℕ} {username : List Char} {fuel : ℕ}
    (hbits : bits < 10) : keygen gmp time bits iters seed username random fuel = none := by
  by_contra hmade
  obtain ⟨keys, hkeys⟩ := Option.ne_none_iff_exists'.mp hmade
  simp only [keygen, Option.bind_eq_bind, Option.bind_eq_some_iff, Prod.exists] at hkeys
  obtain ⟨p, q, n, run, hpub, -⟩ := hkeys
  obtain ⟨hne, -, mid, -, hp⟩ := ss_make_pub_cases hpub
  have hone : random % (bits / 5) + bits / 5 = 1 := by
    rw [show bits / 5 = 1 by omega, Nat.mod_one]
  rw [hone] at hp
  have := make_prime_spec hp Nat.one_pos
  omega

/-- Runs with the same options make the same keys exactly when their clocks agree at every
reading after the first, or at the two seeds where no base is drawn. `-s` does not help. -/
theorem seeded_keys_reproducible_iff (ht : Monotone time) (ht' : Monotone time') :
    Reproducible bits iters random time time' ↔
      (10 ≤ bits → ∀ i, 1 ≤ i → (iters = 0 → i ≤ 2) → time i = time' i) := by
  constructor
  · intro h hbits i
    obtain ⟨hone, htwo⟩ := h.seeds hbits
    induction i using Nat.strong_induction_on with
    | _ i ih =>
        intro hi hshort
        rcases (show i = 1 ∨ 2 ≤ i by omega) with rfl | hmore
        · exact hone
        · by_cases hiters : iters = 0
          · obtain rfl : i = 2 := by
              have := hshort hiters
              omega
            exact htwo hiters
          · obtain ⟨turns, rfl⟩ := Nat.exists_eq_add_of_le' hmore
            have hagree : ∀ j, 1 ≤ j → j < turns + 2 → time j = time' j :=
              fun j hj hlt => ih j hlt hj fun hzero => absurd hzero hiters
            have hle := h.not_lt hbits hiters ht ht' hagree
            have hge := h.symm.not_lt hbits hiters ht' ht fun j hj hlt => (hagree j hj hlt).symm
            omega
  · intro h G gmp seed username keys
    rcases lt_or_ge bits 10 with hsmall | hbits
    · simp [keygen_small hsmall]
    · simp only [keygen_congr (h hbits)]

/-- A run that starts a second earlier, and reads the same times from then on. -/
theorem seeded_keys_reproducible_tick :
    Reproducible 256 50 1804289383 (fun i => if i = 0 then 1700000015 else 1700000016)
      (fun _ => 1700000016) := by
  have hticks : Monotone fun i : ℕ => if i = 0 then 1700000015 else 1700000016 := by
    intro i j hij
    dsimp only
    split_ifs <;> omega
  exact (seeded_keys_reproducible_iff hticks monotone_const).mpr fun _ i hi _ => if_neg (by omega)

/-- Six seconds make another key for `-s 7`. -/
theorem seed_does_not_fix_keys :
    (∃ run, ss_make_pub drawnGmp (fun _ => 1700000015) 10 1 1804289383 1
      (randstate_init drawnGmp (fun _ => 1700000015) (some 7)) = some ((5, 13, 325), run)) ∧
      (∃ run, ss_make_pub drawnGmp (fun _ => 1700000021) 10 1 1804289383 1
        (randstate_init drawnGmp (fun _ => 1700000021) (some 7)) = some ((5, 11, 275), run)) ∧
      ¬ Reproducible 10 1 1804289383 (fun _ => 1700000015) (fun _ => 1700000021) := by
  refine ⟨⟨_, usable_pair_drawn⟩, ⟨_, unusable_pair_drawn⟩, fun h => ?_⟩
  have hsame := (h.seeds le_rfl).1
  omega

end Main

end FavoriteAssignments.SchmidtSamoa
