import FavoriteAssignments.Library.CStrings
import FavoriteAssignments.Life.Universe

/-! # Populating a universe

`uv_populate` and the calls of it in `life.c`. Both calls read from one stream: the second one
goes on where the first one has stopped. -/

namespace FavoriteAssignments.Life

open CStrings

/-! ## Pairs of coordinates -/

/-- What `%u` stores: the low 32 bits of the result of `strtoul`. -/
def unsignedValue (negative : Bool) (digits : List Char) : UInt32 :=
  if 2 ^ 64 ≤ numeralValue digits then UInt32.ofNat (2 ^ 64 - 1)
  else if negative then -UInt32.ofNat (numeralValue digits)
  else UInt32.ofNat (numeralValue digits)

/-- An optional sign: whether it is a minus, and what is left of the stream. -/
def scanSign : List Char → Bool × List Char
  | '-' :: infile => (true, infile)
  | '+' :: infile => (false, infile)
  | infile => (false, infile)

/-- The directive `%u`: the number, and what is left of the stream. A sign is gone also where
no digit follows it. -/
def scanUnsigned (infile : List Char) : Option UInt32 × List Char :=
  let (negative, infile) := scanSign (infile.dropWhile isspace)
  let digits := infile.takeWhile Char.isDigit
  let infile := infile.dropWhile Char.isDigit
  if digits = [] then (none, infile) else (some (unsignedValue negative digits), infile)

/-- `fscanf(infile, "%u %u", &r, &c)`, a pair where the result is 2. -/
def fscanf (infile : List Char) : Option (UInt32 × UInt32) × List Char :=
  match scanUnsigned infile with
  | (none, infile) => (none, infile)
  | (some r, infile) =>
      let (c, infile) := scanUnsigned (infile.dropWhile isspace)
      (c.map fun c => (r, c), infile)

theorem scanSign_length_le (infile : List Char) : (scanSign infile).2.length ≤ infile.length := by
  unfold scanSign
  split <;> simp

theorem dropWhile_length_le (p : Char → Bool) (infile : List Char) :
    (infile.dropWhile p).length ≤ infile.length :=
  (List.dropWhile_suffix p).length_le

theorem scanUnsigned_length_le (infile : List Char) :
    (scanUnsigned infile).2.length ≤ infile.length := by
  have hdigits := dropWhile_length_le Char.isDigit (scanSign (infile.dropWhile isspace)).2
  have hsign := scanSign_length_le (infile.dropWhile isspace)
  have hspace := dropWhile_length_le isspace infile
  simp only [scanUnsigned]
  split <;> dsimp only <;> omega

/-- A number takes at least one digit from the stream. -/
theorem scanUnsigned_length_lt {infile rest : List Char} {x : UInt32}
    (h : scanUnsigned infile = (some x, rest)) : rest.length < infile.length := by
  have hsplit := congrArg List.length (List.takeWhile_append_dropWhile (p := Char.isDigit)
    (l := (scanSign (infile.dropWhile isspace)).2))
  have hsign := scanSign_length_le (infile.dropWhile isspace)
  have hspace := dropWhile_length_le isspace infile
  simp only [scanUnsigned] at h
  split at h
  · simp at h
  · next hdigits =>
      have hpos := List.length_pos_iff.mpr hdigits
      obtain rfl := (Prod.mk.inj h).2
      rw [List.length_append] at hsplit
      omega

theorem fscanf_length_lt {infile rest : List Char} {z : UInt32 × UInt32}
    (h : fscanf infile = (some z, rest)) : rest.length < infile.length := by
  rw [fscanf] at h
  split at h
  · simp at h
  · next r infile' hr =>
      have hfirst := scanUnsigned_length_lt hr
      have hsecond := scanUnsigned_length_le (infile'.dropWhile isspace)
      have hspace := dropWhile_length_le isspace infile'
      have hrest : (scanUnsigned (infile'.dropWhile isspace)).2 = rest := (Prod.mk.inj h).2
      rw [← hrest]
      omega

/-- The pairs that can be read one after another. -/
def pairs (infile : List Char) : List (UInt32 × UInt32) :=
  match _h : fscanf infile with
  | (some z, rest) => z :: pairs rest
  | (none, _) => []
termination_by infile.length
decreasing_by exact fscanf_length_lt _h

/-- The stream behind these pairs and behind what is no pair any more. -/
def pairsEnd (infile : List Char) : List Char :=
  match _h : fscanf infile with
  | (some _, rest) => pairsEnd rest
  | (none, rest) => rest
termination_by infile.length
decreasing_by exact fscanf_length_lt _h

/-! ## The program -/

def uv_create (rows cols : UInt32) (toroidal : Bool) : Universe :=
  { rows, cols, grid := fun _ _ => false, toroidal }

/-- The result, the universe and what is left of the stream. -/
def uv_populate (u : Universe) (infile : List Char) : Option (Bool × Universe × List Char) :=
  match _h : fscanf infile with
  | (some (r, c), rest) =>
      if r > u.rows ∨ c > u.cols then some (false, u, rest)
      else (uv_live_cell u r c).bind fun u => uv_populate u rest
  | (none, rest) => some (true, u, rest)
termination_by infile.length
decreasing_by exact fscanf_length_lt _h

/-- How `main` comes to its loop over the generations, or to `return 0` with the message
`Failed to populate the universe. Invalid row/column range`. -/
inductive Setup where
  | failed
  | runs (uA uB : Universe)

/-- The call of `uv_populate` whose result is tested. -/
def testedCall (uA uB : Universe) (infile : List Char) : Option Setup := do
  let (populated, uA, _) ← uv_populate uA infile
  if populated = false then some .failed else some (.runs uA uB)

/-- `main` up to the loop. A header that is no pair leaves the sizes undefined. -/
def setup (toroidal : Bool) (infile : List Char) : Option Setup :=
  match fscanf infile with
  | (some (r, c), infile) => do
      let uA := uv_create r c toroidal
      let uB := uv_create r c toroidal
      let (_, uA, infile) ← uv_populate uA infile
      testedCall uA uB infile
  | (none, _) => none

/-! ## What a call does -/

/-- A pair of the grid. -/
def Universe.Has (u : Universe) (z : UInt32 × UInt32) : Prop := z.1 < u.rows ∧ z.2 < u.cols

instance decidableHas (u : Universe) (z : UInt32 × UInt32) : Decidable (u.Has z) :=
  inferInstanceAs (Decidable (_ ∧ _))

/-- A pair that the test of `uv_populate` lets not pass. -/
def Universe.Rejects (u : Universe) (z : UInt32 × UInt32) : Prop := u.rows < z.1 ∨ u.cols < z.2

instance decidableRejects (u : Universe) (z : UInt32 × UInt32) : Decidable (u.Rejects z) :=
  inferInstanceAs (Decidable (_ ∨ _))

/-- The universe with the cells of `zs` alive as well. -/
def Universe.mark (u : Universe) (zs : List (UInt32 × UInt32)) : Universe :=
  { u with grid := fun r c => u.grid r c || zs.any fun z => z.1.toNat == r && z.2.toNat == c }

section Call

variable {u : Universe} {infile rest : List Char} {z : UInt32 × UInt32}

theorem pairs_some (h : fscanf infile = (some z, rest)) :
    pairs infile = z :: pairs rest ∧ pairsEnd infile = pairsEnd rest := by
  rw [pairs, pairsEnd]
  split
  · next z' rest' h' =>
      obtain ⟨rfl, rfl⟩ : z = z' ∧ rest = rest' := by simpa using h.symm.trans h'
      exact ⟨rfl, rfl⟩
  · next h' => simp [h] at h'

theorem pairs_none (h : fscanf infile = (none, rest)) :
    pairs infile = [] ∧ pairsEnd infile = rest := by
  rw [pairs, pairsEnd]
  split
  · next h' => simp [h] at h'
  · next h' =>
      refine ⟨rfl, ?_⟩
      simpa using h'.symm.trans h

theorem Universe.Has.not_rejects (h : u.Has z) : ¬u.Rejects z := by
  intro hr
  exact hr.elim (UInt32.lt_asymm h.1) (UInt32.lt_asymm h.2)

@[simp] theorem mark_nil (u : Universe) : u.mark [] = u := by simp [Universe.mark]

@[simp] theorem mark_mark (u : Universe) (ys zs : List (UInt32 × UInt32)) :
    (u.mark ys).mark zs = u.mark (ys ++ zs) := by
  simp [Universe.mark, Bool.or_assoc]

@[simp] theorem mark_has (ys : List (UInt32 × UInt32)) : (u.mark ys).Has z ↔ u.Has z := Iff.rfl

@[simp] theorem mark_rejects (ys : List (UInt32 × UInt32)) :
    (u.mark ys).Rejects z ↔ u.Rejects z := Iff.rfl

theorem mark_grid (zs : List (UInt32 × UInt32)) (r c : ℕ) : (u.mark zs).grid r c = true ↔
    u.grid r c = true ∨ ∃ z ∈ zs, z.1.toNat = r ∧ z.2.toNat = c := by
  simp [Universe.mark]

theorem uv_live_cell_has (h : u.Has z) : uv_live_cell u z.1 z.2 = some (u.mark [z]) := by
  rw [uv_live_cell, setCell, if_pos (show z.1 < u.rows ∧ z.2 < u.cols from h)]
  congr 2
  funext r c
  by_cases hr : z.1.toNat = r
  · subst hr
    by_cases hc : z.2.toNat = c
    · subst hc
      simp
    · simp [Function.update_of_ne (Ne.symm hc), hc]
  · simp [Function.update_of_ne (Ne.symm hr), hr]

theorem uv_live_cell_not_has (h : ¬u.Has z) : uv_live_cell u z.1 z.2 = none := if_neg h

/-- The three ways a call goes: all pairs are set, a pair is rejected, or one is set that the
grid does not have. -/
inductive Populate (u : Universe) (infile : List Char) :
    Option (Bool × Universe × List Char) → Prop where
  | complete : (∀ z ∈ pairs infile, u.Has z) →
      Populate u infile (some (true, u.mark (pairs infile), pairsEnd infile))
  | rejected {good z rest} : pairs infile = good ++ z :: pairs rest → (∀ y ∈ good, u.Has y) →
      u.Rejects z → Populate u infile (some (false, u.mark good, rest))
  | overrun {good z more} : pairs infile = good ++ z :: more → (∀ y ∈ good, u.Has y) →
      ¬u.Has z → ¬u.Rejects z → Populate u infile none

/-- A pair of the grid in front of a call's pairs. -/
theorem Populate.cons {result : Option (Bool × Universe × List Char)}
    (hscan : fscanf infile = (some z, rest)) (hz : u.Has z)
    (h : Populate (u.mark [z]) rest result) : Populate u infile result := by
  obtain ⟨hpairs, hend⟩ := pairs_some hscan
  cases h with
  | complete hall =>
      rw [mark_mark, List.singleton_append, ← hpairs, ← hend]
      apply Populate.complete
      rw [hpairs]
      exact List.forall_mem_cons.mpr ⟨hz, hall⟩
  | rejected hrest hgood hreject =>
      rw [mark_mark, List.singleton_append]
      exact .rejected (by rw [hpairs, hrest, List.cons_append])
        (List.forall_mem_cons.mpr ⟨hz, hgood⟩) hreject
  | overrun hrest hgood hout hpass =>
      exact .overrun (by rw [hpairs, hrest, List.cons_append])
        (List.forall_mem_cons.mpr ⟨hz, hgood⟩) hout hpass

theorem uv_populate_cases (u : Universe) (infile : List Char) :
    Populate u infile (uv_populate u infile) := by
  fun_induction uv_populate u infile with
  | case1 u infile r c rest hscan hreject =>
      have hpairs : pairs infile = [] ++ (r, c) :: pairs rest := (pairs_some hscan).1
      have h : Populate u infile (some (false, u.mark [], rest)) :=
        .rejected hpairs (by simp) hreject
      rwa [mark_nil] at h
  | case2 u infile r c rest hscan hpass ih =>
      by_cases hz : u.Has (r, c)
      · have hlive := uv_live_cell_has hz
        dsimp only at hlive
        rw [hlive, Option.bind_some]
        exact .cons hscan hz (ih _)
      · have hlive := uv_live_cell_not_has hz
        dsimp only at hlive
        have hpairs : pairs infile = [] ++ (r, c) :: pairs rest := (pairs_some hscan).1
        rw [hlive]
        exact .overrun hpairs (by simp) hz hpass
  | case3 u infile rest hscan =>
      obtain ⟨hpairs, hend⟩ := pairs_none hscan
      have h : Populate u infile (some (true, u.mark (pairs infile), pairsEnd infile)) :=
        .complete (by simp [hpairs])
      rwa [hpairs, hend, mark_nil] at h

/-- What a call should do: it accesses no other cells than those of the grid, it reports the
pairs outside of it, and it sets the cells of the pairs before the first of these. -/
def Populates (u : Universe) (infile : List Char) : Prop :=
  ∃ populated u' rest, uv_populate u infile = some (populated, u', rest) ∧
    (populated = false ↔ ∃ z ∈ pairs infile, ¬u.Has z) ∧
    u'.rows = u.rows ∧ u'.cols = u.cols ∧ u'.toroidal = u.toroidal ∧
    ∀ r c, u'.grid r c = true ↔ u.grid r c = true ∨
      ∃ z ∈ (pairs infile).takeWhile (u.Has ·), z.1.toNat = r ∧ z.2.toNat = c

theorem takeWhile_has {good more : List (UInt32 × UInt32)} (hgood : ∀ y ∈ good, u.Has y)
    (hz : ¬u.Has z) : (good ++ z :: more).takeWhile (u.Has ·) = good := by
  rw [List.takeWhile_append_of_pos (by simpa using hgood),
    List.takeWhile_cons_of_neg (by simpa using hz), List.append_nil]

theorem find_not_has {good more : List (UInt32 × UInt32)} (hgood : ∀ y ∈ good, u.Has y)
    (hz : ¬u.Has z) : (good ++ z :: more).find? (¬u.Has ·) = some z := by
  rw [List.find?_eq_some_iff_append]
  exact ⟨by simpa using hz, good, more, rfl, by simpa using hgood⟩

/-- A call does what it should exactly when the first pair outside of the grid, if there is
one, is beyond the number of rows or columns and not equal to it. -/
theorem populates_iff (u : Universe) (infile : List Char) :
    Populates u infile ↔
      ∀ z, (pairs infile).find? (¬u.Has ·) = some z → u.Rejects z := by
  have h := uv_populate_cases u infile
  rw [Populates]
  generalize uv_populate u infile = result at h ⊢
  cases h with
  | complete hall =>
      apply iff_of_true
      · refine ⟨true, _, _, rfl, by simpa using hall, rfl, rfl, rfl, ?_⟩
        have hall' : (pairs infile).takeWhile (u.Has ·) = pairs infile :=
          List.takeWhile_eq_self_iff.mpr (by simpa using hall)
        rw [hall']
        exact mark_grid _
      · intro z hz
        have hnot := List.find?_some hz
        exact absurd (hall z (List.mem_of_find?_eq_some hz)) (by simpa using hnot)
  | @rejected good z rest hpairs hgood hreject =>
      have hz : ¬u.Has z := fun hz => hz.not_rejects hreject
      apply iff_of_true
      · refine ⟨false, _, _, rfl, iff_of_true rfl ⟨z, by simp [hpairs], hz⟩, rfl, rfl, rfl, ?_⟩
        rw [hpairs, takeWhile_has hgood hz]
        exact mark_grid _
      · intro y hy
        rw [hpairs, find_not_has hgood hz] at hy
        exact Option.some.inj hy ▸ hreject
  | overrun hpairs hgood hz hpass =>
      apply iff_of_false
      · simp
      · intro hall
        rw [hpairs] at hall
        exact hpass (hall _ (find_not_has hgood hz))

/-- The row numbered like the number of rows is written to. -/
theorem boundary_pair_set :
    ¬ ∀ (u : Universe) (infile : List Char), Populates u infile := by
  intro h
  obtain ⟨populated, u', rest, hcall, -⟩ := h (uv_create 3 3 false) ['3', ' ', '0']
  have hnone : uv_populate (uv_create 3 3 false) ['3', ' ', '0'] = none := by
    decide +kernel
  simp [hnone] at hcall

end Call

/-! ## Two calls -/

section Setup

variable {toroidal : Bool} {infile list : List Char} {r c : UInt32}

/-- What `main` should do with a list of pairs: it fails if one of them is outside of the grid,
and else begins with exactly their cells alive. -/
structure ReportsOutside (toroidal : Bool) (infile : List Char) (r c : UInt32)
    (list : List Char) : Prop where
  fails : (∃ z ∈ pairs list, ¬(uv_create r c toroidal).Has z) → setup toroidal infile = some .failed
  runs : (∀ z ∈ pairs list, (uv_create r c toroidal).Has z) →
    ∃ uA, setup toroidal infile = some (.runs uA (uv_create r c toroidal)) ∧
      uA.rows = r ∧ uA.cols = c ∧ uA.toroidal = toroidal ∧
      ∀ i j, uA.grid i j = true ↔ ∃ z ∈ pairs list, z.1.toNat = i ∧ z.2.toNat = j

theorem setup_eq (toroidal : Bool) (h : fscanf infile = (some (r, c), list)) :
    setup toroidal infile = (uv_populate (uv_create r c toroidal) list).bind fun (_, uA, rest) =>
      testedCall uA (uv_create r c toroidal) rest := by
  rw [setup, h]
  rfl

theorem filter_not_has {u : Universe} {good more : List (UInt32 × UInt32)} {z : UInt32 × UInt32}
    (hgood : ∀ y ∈ good, u.Has y) (hz : ¬u.Has z) :
    (good ++ z :: more).filter (¬u.Has ·) = z :: more.filter (¬u.Has ·) := by
  rw [List.filter_append, List.filter_eq_nil_iff.mpr (by simpa using hgood),
    List.filter_cons_of_pos (by simpa using hz), List.nil_append]

theorem testedCall_failed_iff (uA uB : Universe) (infile : List Char) :
    testedCall uA uB infile = some .failed ↔
      ∃ z more, (pairs infile).filter (¬uA.Has ·) = z :: more ∧ uA.Rejects z := by
  have h := uv_populate_cases uA infile
  rw [testedCall]
  generalize uv_populate uA infile = result at h ⊢
  cases h with
  | complete hall =>
      rw [List.filter_eq_nil_iff.mpr (by simpa using hall)]
      simp
  | rejected hpairs hgood hreject =>
      have hz := fun hz : uA.Has _ => hz.not_rejects hreject
      rw [hpairs, filter_not_has hgood hz]
      exact iff_of_true rfl ⟨_, _, rfl, hreject⟩
  | overrun hpairs hgood hz hpass =>
      rw [hpairs, filter_not_has hgood hz]
      apply iff_of_false
      · simp
      · rintro ⟨z, more, heq, hreject⟩
        exact hpass ((List.cons.inj heq).1 ▸ hreject)

theorem testedCall_runs_iff (uA uB : Universe) (infile : List Char) (u : Universe) :
    testedCall uA uB infile = some (.runs u uB) ↔
      (∀ z ∈ pairs infile, uA.Has z) ∧ u = uA.mark (pairs infile) := by
  have h := uv_populate_cases uA infile
  rw [testedCall]
  generalize uv_populate uA infile = result at h ⊢
  cases h with
  | complete hall =>
      rw [and_iff_right hall]
      constructor
      · intro heq
        cases heq
        rfl
      · intro heq
        subst heq
        rfl
  | rejected hpairs hgood hreject =>
      apply iff_of_false
      · simp
      · intro hall
        exact (hall.1 _ (by rw [hpairs]; simp)).not_rejects hreject
  | overrun hpairs hgood hz hpass =>
      apply iff_of_false
      · simp
      · intro hall
        exact hz (hall.1 _ (by rw [hpairs]; simp))

/-- Where the first call comes to the end of the list, the second one sees what follows it. -/
theorem reports_outside_of_complete (h : fscanf infile = (some (r, c), list))
    (hall : ∀ z ∈ pairs list, (uv_create r c toroidal).Has z)
    (hfirst : uv_populate (uv_create r c toroidal) list =
      some (true, (uv_create r c toroidal).mark (pairs list), pairsEnd list)) :
    ReportsOutside toroidal infile r c list ↔ ∀ z ∈ pairs (pairsEnd list), z ∈ pairs list := by
  have hsetup := setup_eq toroidal h
  rw [hfirst, Option.bind_some] at hsetup
  constructor
  · intro hreports
    obtain ⟨uA, hruns, -, -, -, hcells⟩ := hreports.runs hall
    obtain ⟨-, rfl⟩ := (testedCall_runs_iff _ _ _ _).mp (hsetup.symm.trans hruns)
    intro z hz
    have halive := (hcells z.1.toNat z.2.toNat).mp
      ((mark_grid _ _ _).mpr (.inr ⟨z, hz, rfl, rfl⟩))
    obtain ⟨y, hy, hrow, hcol⟩ := halive
    have hyz : y = z := Prod.ext (UInt32.toNat_inj.mp hrow) (UInt32.toNat_inj.mp hcol)
    exact hyz ▸ hy
  · intro hmore
    refine ⟨fun hout => ?_, fun _ => ?_⟩
    · obtain ⟨z, hz, hnot⟩ := hout
      exact absurd (hall z hz) hnot
    · refine ⟨_, hsetup.trans ((testedCall_runs_iff _ _ _ _).mpr
        ⟨fun z hz => hall z (hmore z hz), rfl⟩), rfl, rfl, rfl, ?_⟩
      intro i j
      rw [mark_mark, mark_grid]
      constructor
      · intro halive
        rcases halive with hdead | ⟨z, hz, hplace⟩
        · simp [uv_create] at hdead
        · exact ⟨z, (List.mem_append.mp hz).elim id (hmore z), hplace⟩
      · rintro ⟨z, hz, hplace⟩
        exact .inr ⟨z, List.mem_append_left _ hz, hplace⟩

theorem reports_outside_of_not_all (hout : ∃ z ∈ pairs list, ¬(uv_create r c toroidal).Has z) :
    ReportsOutside toroidal infile r c list ↔ setup toroidal infile = some .failed := by
  constructor
  · intro hreports
    exact hreports.fails hout
  · intro hfailed
    refine ⟨fun _ => hfailed, fun hall => ?_⟩
    obtain ⟨z, hz, hnot⟩ := hout
    exact absurd (hall z hz) hnot

/-- `main` does what it should exactly when no pair is outside of the grid and the second call
finds no new one behind the list, or at least two pairs are outside and the test rejects the
first two of them. -/
theorem reports_outside_iff (h : fscanf infile = (some (r, c), list)) :
    ReportsOutside toroidal infile r c list ↔
      ((∀ z ∈ pairs list, (uv_create r c toroidal).Has z) ∧
        ∀ z ∈ pairs (pairsEnd list), z ∈ pairs list) ∨
      ∃ y z more, (pairs list).filter (¬(uv_create r c toroidal).Has ·) = y :: z :: more ∧
        (uv_create r c toroidal).Rejects y ∧ (uv_create r c toroidal).Rejects z := by
  have hsetup := setup_eq toroidal h
  have hfirst := uv_populate_cases (uv_create r c toroidal) list
  generalize hresult : uv_populate (uv_create r c toroidal) list = result at hfirst hsetup
  cases hfirst with
  | complete hall =>
      have hnone : (pairs list).filter (¬(uv_create r c toroidal).Has ·) = [] :=
        List.filter_eq_nil_iff.mpr (by simpa using hall)
      rw [reports_outside_of_complete h hall hresult, hnone, and_iff_right hall]
      simp [-Prod.forall]
  | @rejected good y rest hpairs hgood hreject =>
      have hy : ¬(uv_create r c toroidal).Has y := fun hy => hy.not_rejects hreject
      have hfails : setup toroidal infile = some .failed ↔ ∃ z more,
          (pairs rest).filter (¬(uv_create r c toroidal).Has ·) = z :: more ∧
            (uv_create r c toroidal).Rejects z := by
        rw [hsetup]
        exact testedCall_failed_iff ((uv_create r c toroidal).mark good) _ rest
      rw [reports_outside_of_not_all ⟨y, by simp [hpairs], hy⟩, hfails, hpairs,
        filter_not_has hgood hy]
      constructor
      · intro hsecond
        obtain ⟨z, more, heq, hz⟩ := hsecond
        exact .inr ⟨y, z, more, by rw [heq], hreject, hz⟩
      · intro hcond
        rcases hcond with ⟨hall, -⟩ | ⟨y', z, more, heq, -, hz⟩
        · exact absurd (hall y (by simp)) hy
        · exact ⟨z, more, (List.cons.inj heq).2, hz⟩
  | @overrun good y more hpairs hgood hy hpass =>
      rw [reports_outside_of_not_all ⟨y, by simp [hpairs], hy⟩, hsetup, hpairs,
        filter_not_has hgood hy]
      apply iff_of_false
      · simp
      · intro hcond
        rcases hcond with ⟨hall, -⟩ | ⟨y', z, more, heq, hreject, -⟩
        · exact hy (hall y (by simp))
        · exact hpass ((List.cons.inj heq).1 ▸ hreject)

/-- A good pair between two others. -/
theorem reports_outside_two_pairs :
    ReportsOutside false ['3', ' ', '3', ' ', '9', ' ', '9', ' ', '1', ' ', '1', ' ', '4', ' ', '0']
      3 3 [' ', '9', ' ', '9', ' ', '1', ' ', '1', ' ', '4', ' ', '0'] :=
  (reports_outside_iff (by decide +kernel)).mpr
    (.inr ⟨(9, 9), (4, 0), [], by decide +kernel, by decide, by decide⟩)

/-- The first call takes a single pair outside of the grid from the stream, and its result is
not tested. -/
theorem single_pair_swallowed :
    ¬ ∀ (toroidal : Bool) (infile : List Char) (r c : UInt32) (list : List Char),
      fscanf infile = (some (r, c), list) → ReportsOutside toroidal infile r c list := by
  intro h
  have hheader : fscanf ['3', ' ', '3', ' ', '9', ' ', '9'] =
      (some (3, 3), [' ', '9', ' ', '9']) := by decide +kernel
  have hfails := (h false _ _ _ _ hheader).fails
    ⟨(9, 9), by decide +kernel, by decide⟩
  have hrun : (setup false ['3', ' ', '3', ' ', '9', ' ', '9']).map (fun outcome =>
      match outcome with | .failed => true | .runs _ _ => false) = some false := by
    decide +kernel
  rw [hfails] at hrun
  simp at hrun

end Setup

end FavoriteAssignments.Life
