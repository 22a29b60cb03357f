import FavoriteAssignments.Library.Streams
import FavoriteAssignments.Life.Torus
import FavoriteAssignments.Life.Populate

/-! # The program

`main` of `life.c` with its options, from the streams it opens to the text it leaves in
them. -/

namespace FavoriteAssignments.Life

open Loops CellularAutomaton Streams

/-! ## Output -/

def uv_print (u : Universe) (outfile : List Char) : Option (List Char) :=
  forUp 0 u.rows (fun r outfile => do
    let outfile ← forUp 0 u.cols (fun c outfile => do
      let alive ← uv_get_cell u r c
      return outfile ++ [if alive then 'o' else '.']) outfile
    return outfile ++ ['\n']) outfile

/-- The characters on the screen, which is as large as the universe needs. -/
abbrev Screen := ℕ → ℕ → Char

def clear : Screen := fun _ _ => ' '

/-- `mvprintw` of one character. -/
def mvprintw (screen : Screen) (row col : UInt32) (c : Char) : Screen :=
  Function.update screen row.toNat (Function.update (screen row.toNat) col.toNat c)

/-- What is on the screen at `refresh()`. -/
def draw (uA : Universe) : Option Screen :=
  forUp 0 uA.rows (fun row => forUp 0 uA.cols fun col screen => do
    let alive ← uv_get_cell uA row col
    return mvprintw screen row col (if alive then 'o' else '.')) clear

/-- `if (!s)`: the screens that have been shown, with the new one. -/
def refresh (s : Bool) (uA : Universe) (shown : List Screen) : Option (List Screen) :=
  if s then some shown else (draw uA).map fun screen => shown ++ [screen]

/-- The loop over the generations. -/
def animate (s : Bool) : ℕ → Universe → Universe → List Screen →
    Option (Universe × Universe × List Screen)
  | 0, uA, uB, shown => some (uA, uB, shown)
  | k + 1, uA, uB, shown => do
      let next ← generation uA uB
      let shown ← refresh s next shown
      animate s k next uA shown

/-! ## Options -/

/-- What `getopt` returns, and of `optarg` a path or the result of `atoi`. Any other option
has no case in the `switch`. -/
inductive Opt where
  | t
  | s
  | n (generations : ℤ)
  | i (path : String)
  | o (path : String)
  | h
  | unknown
  deriving DecidableEq

def help : String :=
  "SYNOPSIS\n" ++ "The Game of Life\n" ++ "USAGE\n" ++
  "./life [-tsn:i:o:h] [-n number] [-i file] [-o file]\n\n" ++ "OPTIONS\n" ++
  "-h Display program help and usage.\n" ++ "-t Create your universe as a toroidal\n" ++
  " -s Silent - do not use animate the evolution\n" ++
  "-n \x7bnumber\x7d    Number of generations [default: 100]\n" ++
  "-i \x7bfile\x7d Input file [default: stdin]\n" ++
  "-o \x7bfile\x7d      Output file [default: stdout]\n"

/-- The variables that the options set. `infile` is `none` for a null pointer. -/
structure Settings where
  toroidal : Bool
  s : Bool
  generations : ℤ
  infile : Option Stream
  outfile : Stream

/-- The body of the `switch`. -/
def applyOption (st : Settings × World Char) : Opt → Settings × World Char
  | .t => ({ st.1 with toroidal := true }, st.2)
  | .s => ({ st.1 with s := true }, st.2)
  | .n generations => ({ st.1 with generations }, st.2)
  | .i path => ({ st.1 with infile := st.2.openRead path }, st.2)
  | .o path => ({ st.1 with outfile := .file path }, st.2.openWrite path)
  | .h => (st.1, st.2.write help.toList .standard)
  | .unknown => st

/-- The loop over the options. `toroidal` is the value that the variable happens to have,
since no initializer gives it one. -/
def getopts (toroidal : Bool) (options : List Opt) (w : World Char) : Settings × World Char :=
  options.foldl applyOption (⟨toroidal, false, 100, some .standard, .standard⟩, w)

/-! ## `main` -/

/-- How `main` returns, with the screens it has shown. -/
inductive Ending where
  | failed
  | finished (shown : List Screen)

/-- `main` from the loop over the generations on. -/
def run (settings : Settings) (w : World Char) : Setup → Option (World Char × Ending)
  | .failed => some (w, .failed)
  | .runs uA uB => do
      let (uA, _, shown) ← animate settings.s settings.generations.toNat uA uB []
      let text ← uv_print uA []
      return (w.write text settings.outfile, .finished shown)

/-- The program; no result where it dereferences a null pointer, uses sizes that it has not
read or leaves a grid. -/
def main (toroidal : Bool) (options : List Opt) (w : World Char) :
    Option (World Char × Ending) := do
  let (settings, w) := getopts toroidal options w
  let infile ← settings.infile.bind w.read
  let populated ← setup settings.toroidal infile
  run settings w populated

/-! ## What is printed -/

/-- The character for a cell of a configuration. -/
def charAt (X : ℤ × ℤ → Bool) (r c : ℕ) : Char := if X (r, c) then 'o' else '.'

/-- The lines of a configuration. -/
def picture (rows cols : UInt32) (X : ℤ × ℤ → Bool) : List Char :=
  (List.range rows.toNat).flatMap fun r => (List.range cols.toNat).map (charAt X r) ++ ['\n']

/-- The screen with a configuration on it. -/
def screenOf (rows cols : UInt32) (X : ℤ × ℤ → Bool) : Screen := fun r c =>
  if r < rows.toNat ∧ c < cols.toNat then charAt X r c else ' '

section Printing

variable {u : Universe}

theorem uv_get_cell_cells {r c : UInt32} (hr : r < u.rows) (hc : c < u.cols) :
    uv_get_cell u r c = some (u.cells (r.toNat, c.toNat)) := by
  rw [uv_get_cell_eq hr hc, ← cells_place hr hc]
  rfl

theorem uv_print_eq (u : Universe) (outfile : List Char) :
    uv_print u outfile = some (outfile ++ picture u.rows u.cols u.cells) := by
  have hrow : ∀ r outfile, r < u.rows →
      forUp 0 u.cols (fun c outfile => do
        let alive ← uv_get_cell u r c
        return outfile ++ [if alive then 'o' else '.']) outfile =
      some (outfile ++ (List.range u.cols.toNat).map (charAt u.cells r.toNat)) := by
    intro r outfile hr
    rw [forUp_eq_foldl (f := fun outfile c => outfile ++ [charAt u.cells r.toNat c])]
    · rw [UInt32.toNat_zero, Nat.sub_zero, ← List.range_eq_range', List.foldl_append_eq_append,
        ← List.flatMap_def, ← List.map_eq_flatMap]
    · intro c outfile _ hc
      rw [uv_get_cell_cells hr hc]
      rfl
  rw [uv_print, forUp_eq_foldl (f := fun outfile r => outfile ++
    ((List.range u.cols.toNat).map (charAt u.cells r) ++ ['\n']))]
  · rw [UInt32.toNat_zero, Nat.sub_zero, ← List.range_eq_range', List.foldl_append_eq_append]
    rfl
  · intro r outfile _ hr
    rw [hrow r outfile hr, ← List.append_assoc]
    rfl

theorem draw_eq (u : Universe) : draw u = some (screenOf u.rows u.cols u.cells) := by
  have hdraw : Yields (draw u) fun screen => ∀ r c, screen r c =
      if r < u.rows.toNat ∧ c < u.cols.toNat then charAt u.cells r c else ' ' := by
    apply forUp_rule (fun row (screen : Screen) => ∀ r c, screen r c =
      if r < row ∧ c < u.cols.toNat then charAt u.cells r c else ' ') UInt32.zero_le
    · exact fun r c => (if_neg (by simp)).symm
    · intro row screen _ hrow hscreen
      have hcols : Yields (forUp 0 u.cols (fun col screen => do
          let alive ← uv_get_cell u row col
          return mvprintw screen row col (if alive then 'o' else '.')) screen)
          fun screen => ∀ r c, screen r c =
            if r < row.toNat ∧ c < u.cols.toNat ∨ r = row.toNat ∧ c < u.cols.toNat then
              charAt u.cells r c else ' ' := by
        apply forUp_rule (fun col (screen : Screen) => ∀ r c, screen r c =
          if r < row.toNat ∧ c < u.cols.toNat ∨ r = row.toNat ∧ c < col then
            charAt u.cells r c else ' ') UInt32.zero_le
        · simpa using hscreen
        · intro col screen _ hcol hscreen
          rw [uv_get_cell_cells hrow hcol]
          refine ⟨_, rfl, fun r c => ?_⟩
          have hcol' := UInt32.lt_iff_toNat_lt.mp hcol
          rw [mvprintw]
          by_cases hr : r = row.toNat
          · subst hr
            by_cases hc : c = col.toNat
            · subst hc
              simp [charAt]
            · rw [Function.update_self, Function.update_of_ne hc, hscreen]
              congr 1
              rw [eq_iff_iff]
              omega
          · rw [Function.update_of_ne hr, hscreen]
            simp [hr]
      apply hcols.mono
      intro screen hscreen r c
      rw [hscreen]
      congr 1
      rw [eq_iff_iff]
      omega
  obtain ⟨screen, hrun, hscreen⟩ := hdraw
  rw [hrun]
  exact congrArg some (funext fun r => funext fun c => hscreen r c)

theorem refresh_eq (s : Bool) (u : Universe) (shown : List Screen) :
    refresh s u shown =
      some (shown ++ if s then [] else [screenOf u.rows u.cols u.cells]) := by
  cases s
  · rw [refresh, draw_eq]
    rfl
  · rw [refresh, if_pos rfl, if_pos rfl, List.append_nil]

/-- Before its first newline a text is determined. -/
theorem append_newline_inj {x y s t : List Char} (hx : '\n' ∉ x) (hy : '\n' ∉ y)
    (h : x ++ '\n' :: s = y ++ '\n' :: t) : x = y ∧ s = t := by
  have hfront : ∀ {x s : List Char}, '\n' ∉ x →
      (x ++ '\n' :: s).takeWhile (· != '\n') = x := by
    intro x s hx
    rw [List.takeWhile_append_of_pos, List.takeWhile_cons_of_neg (by simp), List.append_nil]
    intro c hc
    rw [bne_iff_ne]
    rintro rfl
    exact hx hc
  obtain rfl : x = y := by rw [← hfront hx, h, hfront hy]
  exact ⟨rfl, (List.cons.inj (List.append_cancel_left h)).2⟩

/-- Lines can be told apart by their ends. -/
theorem lines_inj (xs ys : List (List Char)) (hx : ∀ x ∈ xs, '\n' ∉ x) (hy : ∀ y ∈ ys, '\n' ∉ y)
    (h : xs.flatMap (· ++ ['\n']) = ys.flatMap (· ++ ['\n'])) : xs = ys := by
  induction xs generalizing ys with
  | nil =>
      cases ys with
      | nil => rfl
      | cons y ys => simp at h
  | cons x xs ih =>
      cases ys with
      | nil => simp at h
      | cons y ys =>
          obtain ⟨hx₁, hx₂⟩ := List.forall_mem_cons.mp hx
          obtain ⟨hy₁, hy₂⟩ := List.forall_mem_cons.mp hy
          simp only [List.flatMap_cons, List.append_assoc, List.singleton_append] at h
          obtain ⟨rfl, hrest⟩ := append_newline_inj hx₁ hy₁ h
          rw [ih ys hx₂ hy₂ hrest]

theorem charAt_inj {X Y : ℤ × ℤ → Bool} {r c : ℕ} :
    charAt X r c = charAt Y r c ↔ X (r, c) = Y (r, c) := by
  rw [charAt, charAt]
  cases X (r, c) <;> cases Y (r, c) <;> simp

theorem newline_not_mem (X : ℤ × ℤ → Bool) (rows cols : List ℕ) :
    ∀ x ∈ rows.map fun r => cols.map (charAt X r), '\n' ∉ x := by
  intro x hx
  obtain ⟨r, -, rfl⟩ := List.mem_map.mp hx
  rw [List.mem_map]
  rintro ⟨c, -, hc⟩
  rw [charAt] at hc
  split at hc <;> simp at hc

theorem exists_toNat_eq {n : UInt32} {i : ℕ} (hi : i < n.toNat) : ∃ x, x < n ∧ x.toNat = i := by
  have hto : (UInt32.ofNat i).toNat = i :=
    UInt32.toNat_ofNat_of_lt (show i < UInt32.size from lt_trans hi n.toNat_lt)
  exact ⟨UInt32.ofNat i, UInt32.lt_iff_toNat_lt.mpr (hto.symm ▸ hi), hto⟩

/-- A text determines the number of its lines and, line by line, their cells. -/
theorem picture_inj {rows cols rows' cols' : UInt32} {X Y : ℤ × ℤ → Bool}
    (h : picture rows cols X = picture rows' cols' Y) :
    rows = rows' ∧ ∀ r < rows.toNat, cols = cols' ∧ ∀ c < cols.toNat, X (r, c) = Y (r, c) := by
  have hlines := lines_inj
    ((List.range rows.toNat).map fun r => (List.range cols.toNat).map (charAt X r))
    ((List.range rows'.toNat).map fun r => (List.range cols'.toNat).map (charAt Y r))
    (newline_not_mem _ _ _) (newline_not_mem _ _ _) (by simpa [picture, List.flatMap_map] using h)
  obtain rfl : rows = rows' := by
    simpa [UInt32.toNat_inj] using congrArg List.length hlines
  refine ⟨rfl, fun r hr => ?_⟩
  have hline := List.map_inj_left.mp hlines r (List.mem_range.mpr hr)
  obtain rfl : cols = cols' := by
    simpa [UInt32.toNat_inj] using congrArg List.length hline
  exact ⟨rfl, fun c hc => charAt_inj.mp (List.map_inj_left.mp hline c (List.mem_range.mpr hc))⟩

/-- Two universes print the same text exactly when they have the same rows, and also the same
columns and cells unless there is no row. -/
theorem uv_print_eq_iff (u v : Universe) :
    uv_print u [] = uv_print v [] ↔
      u.rows = v.rows ∧ (0 < u.rows → u.cols = v.cols ∧
        ∀ r c, r < u.rows → c < u.cols → uv_get_cell u r c = uv_get_cell v r c) := by
  rw [uv_print_eq, uv_print_eq, List.nil_append, List.nil_append, Option.some.injEq]
  constructor
  · intro h
    obtain ⟨hrows, hlines⟩ := picture_inj h
    refine ⟨hrows, fun hpos => ?_⟩
    have hcols := (hlines 0 hpos).1
    refine ⟨hcols, fun r c hr hc => ?_⟩
    rw [uv_get_cell_cells hr hc, uv_get_cell_cells (hrows ▸ hr) (hcols ▸ hc),
      (hlines r.toNat hr).2 c.toNat hc]
  · rintro ⟨hrows, hlines⟩
    rw [picture, picture, ← hrows]
    refine List.flatMap_congr fun i hi => ?_
    obtain ⟨r, hr, rfl⟩ := exists_toNat_eq (List.mem_range.mp hi)
    obtain ⟨hcols, hcells⟩ := hlines (UInt32.lt_iff_toNat_lt.mpr (pos_of_lt hr))
    rw [← hcols]
    refine congrArg (· ++ ['\n']) (List.map_congr_left fun j hj => charAt_inj.mpr ?_)
    obtain ⟨c, hc, rfl⟩ := exists_toNat_eq (List.mem_range.mp hj)
    have hcell := hcells r c hr hc
    rw [uv_get_cell_cells hr hc, uv_get_cell_cells (hrows ▸ hr) (hcols ▸ hc)] at hcell
    exact Option.some.inj hcell

end Printing

/-! ## The loop -/

section Loop

variable {uA uB : Universe}

/-- On either kind of universe a census stays inside the grid. -/
theorem uv_census_isSome {u : Universe} {r c : UInt32} (hr : r < u.rows) (hc : c < u.cols) :
    ∃ n, uv_census u r c = some n := by
  cases ht : u.toroidal with
  | false => exact ⟨_, uv_census_flat ht hr hc⟩
  | true => exact ⟨_, uv_census_toroidal ht hr hc⟩

theorem generation_sameSize (hsize : SameSize uA uB) :
    Yields (generation uA uB) (SameSize uA) := by
  have hcensus : ∀ r c, r < uA.rows → c < uA.cols →
      uv_census uA r c = some ((uv_census uA r c).getD 0) := by
    intro r c hr hc
    obtain ⟨n, hn⟩ := uv_census_isSome hr hc
    rw [hn, Option.getD_some]
  exact (generation_yields hsize _ hcensus).mono fun _ hu => hu.size

/-- Neither the generations nor their screens fail. -/
theorem animate_yields (s : Bool) (k : ℕ) (hsize : SameSize uA uB) (shown : List Screen) :
    Yields (animate s k uA uB shown) fun _ => True := by
  induction k generalizing uA uB shown with
  | zero => exact ⟨_, rfl, trivial⟩
  | succ k ih =>
      rw [animate]
      apply (generation_sameSize hsize).bind
      intro next hnext
      rw [refresh_eq]
      exact ih hnext.symm _

/-- What the loop shows has no influence on what it computes. -/
theorem animate_silent (s : Bool) (k : ℕ) (uA uB : Universe) (shown : List Screen) :
    animate true k uA uB [] =
      (animate s k uA uB shown).map fun out => (out.1, out.2.1, []) := by
  induction k generalizing uA uB shown with
  | zero => rfl
  | succ k ih =>
      rw [animate, animate]
      cases generation uA uB with
      | none => rfl
      | some next =>
          simp only [refresh_eq, Option.bind_eq_bind, Option.bind_some]
          exact ih next uA _

end Loop

/-! ## Silence -/

/-- As if `-s` had been given. -/
def silence (st : Settings × World Char) : Settings × World Char := ({ st.1 with s := true }, st.2)

theorem applyOption_silence (st : Settings × World Char) (opt : Opt) :
    applyOption (silence st) opt = silence (applyOption st opt) := by
  cases opt <;> rfl

theorem getopts_silent (toroidal : Bool) (front options : List Opt) (w : World Char) :
    getopts toroidal (front ++ .s :: options) w =
      silence (getopts toroidal (front ++ options) w) := by
  have hfold : ∀ st, options.foldl applyOption (silence st) =
      silence (options.foldl applyOption st) := by
    induction options with
    | nil => exact fun _ => rfl
    | cons opt options ih =>
        intro st
        rw [List.foldl_cons, List.foldl_cons, applyOption_silence]
        exact ih _
  rw [getopts, getopts, List.foldl_append, List.foldl_append, List.foldl_cons]
  exact hfold _

/-! ## Whole runs -/

def Ending.silent : Ending → Ending
  | .failed => .failed
  | .finished _ => .finished []

theorem run_silent (st : Settings × World Char) (populated : Setup) :
    run (silence st).1 (silence st).2 populated =
      (run st.1 st.2 populated).map fun out => (out.1, out.2.silent) := by
  cases populated with
  | failed => rfl
  | runs uA uB =>
      rw [run, run]
      simp only [silence, uv_print_eq, Option.bind_eq_bind, Option.bind_some, Option.pure_def]
      rw [animate_silent st.1.s _ uA uB []]
      cases animate st.1.s st.1.generations.toNat uA uB [] with
      | none => rfl
      | some out => rfl

/-- Wherever it stands, `-s` takes the screens from a run and nothing else: on every input the
program ends as it does without the option, with the same files and the same output. -/
theorem main_silent (toroidal : Bool) (front options : List Opt) (w : World Char) :
    main toroidal (front ++ .s :: options) w =
      (main toroidal (front ++ options) w).map fun out => (out.1, out.2.silent) := by
  rw [main, main, getopts_silent]
  generalize getopts toroidal (front ++ options) w = st
  simp only [Option.bind_eq_bind, Option.map_bind, run_silent, Function.comp_def]
  rfl

section Runs

variable {toroidal : Bool} {options : List Opt} {w w' : World Char} {settings : Settings}
  {infile list : List Char} {r c : UInt32}

/-- The pairs of a list that are outside of the grid. -/
def outside (u : Universe) (list : List Char) : List (UInt32 × UInt32) :=
  (pairs list).filter (¬u.Has ·)

/-- A call fails at its first pair outside of the grid, if its test lets this one pass. -/
theorem uv_populate_none_iff (u : Universe) (infile : List Char) :
    uv_populate u infile = none ↔ ∃ z ∈ (outside u infile).take 1, ¬u.Rejects z := by
  have h := uv_populate_cases u infile
  rw [outside]
  generalize uv_populate u infile = result at h ⊢
  cases h with
  | complete hall =>
      rw [List.filter_eq_nil_iff.mpr (by simpa using hall)]
      simp
  | rejected hpairs hgood hreject =>
      rw [hpairs, filter_not_has hgood fun hz => hz.not_rejects hreject]
      simpa using hreject
  | overrun hpairs hgood hz hpass =>
      rw [hpairs, filter_not_has hgood hz]
      simpa using hpass

theorem testedCall_none_iff (uA uB : Universe) (infile : List Char) :
    testedCall uA uB infile = none ↔ uv_populate uA infile = none := by
  rw [testedCall]
  rcases uv_populate uA infile with _ | ⟨populated, u, rest⟩
  · simp
  · cases populated <;> simp

theorem setup_none_iff (hheader : fscanf infile = (some (r, c), list)) :
    setup toroidal infile = none ↔
      (∃ z ∈ (outside (uv_create r c toroidal) list).take 2,
        ¬(uv_create r c toroidal).Rejects z) ∨
      outside (uv_create r c toroidal) list = [] ∧
        ∃ z ∈ (outside (uv_create r c toroidal) (pairsEnd list)).take 1,
          ¬(uv_create r c toroidal).Rejects z := by
  rw [setup_eq toroidal hheader]
  have h := uv_populate_cases (uv_create r c toroidal) list
  generalize uv_create r c toroidal = u at h ⊢
  generalize uv_populate u list = result at h ⊢
  rw [outside]
  cases h with
  | complete hall =>
      rw [List.filter_eq_nil_iff.mpr (by simpa using hall), Option.bind_some,
        testedCall_none_iff, uv_populate_none_iff]
      simp [outside]
  | rejected hpairs hgood hreject =>
      rw [hpairs, filter_not_has hgood fun hz => hz.not_rejects hreject, Option.bind_some,
        testedCall_none_iff, uv_populate_none_iff]
      simp [outside, hreject]
  | overrun hpairs hgood hz hpass =>
      rw [hpairs, filter_not_has hgood hz]
      simp [hpass]

theorem run_isSome (settings : Settings) (w : World Char) (populated : Setup)
    (hsize : ∀ uA uB, populated = .runs uA uB → SameSize uA uB) :
    ∃ out, run settings w populated = some out := by
  cases populated with
  | failed => exact ⟨_, rfl⟩
  | runs uA uB =>
      obtain ⟨out, hout, -⟩ := animate_yields settings.s settings.generations.toNat
        (hsize uA uB rfl) []
      rw [run, hout]
      simp only [uv_print_eq, Option.bind_eq_bind, Option.bind_some]
      exact ⟨_, rfl⟩

theorem uv_populate_sameSize {u u' : Universe} {populated : Bool} {rest : List Char}
    (h : uv_populate u infile = some (populated, u', rest)) : SameSize u' u := by
  have hcases := uv_populate_cases u infile
  rw [h] at hcases
  cases hcases <;> exact ⟨rfl, rfl, rfl⟩

theorem setup_sameSize {uA uB : Universe} (hheader : fscanf infile = (some (r, c), list))
    (h : setup toroidal infile = some (.runs uA uB)) : SameSize uA uB := by
  rw [setup_eq toroidal hheader] at h
  obtain ⟨⟨populated, u, rest⟩, hfirst, h⟩ := Option.bind_eq_some_iff.mp h
  have h : testedCall u (uv_create r c toroidal) rest = some (.runs uA uB) := h
  rw [testedCall] at h
  obtain ⟨⟨populated', u', rest'⟩, hsecond, h⟩ := Option.bind_eq_some_iff.mp h
  have hsize := (uv_populate_sameSize hsecond).trans (uv_populate_sameSize hfirst)
  cases populated' with
  | false => simp at h
  | true =>
      obtain ⟨rfl, rfl⟩ : u' = uA ∧ uv_create r c toroidal = uB := by simpa using h
      exact hsize

/-- Whatever the options and on either kind of universe, the program leaves its grids only
while it populates them: of the pairs outside of the grid that the two calls come to, one
passes the test. -/
theorem main_leaves_grid_iff (hoptions : getopts toroidal options w = (settings, w'))
    (hinfile : settings.infile.bind w'.read = some infile)
    (hheader : fscanf infile = (some (r, c), list)) :
    main toroidal options w = none ↔
      (∃ z ∈ (outside (uv_create r c settings.toroidal) list).take 2,
        ¬(uv_create r c settings.toroidal).Rejects z) ∨
      outside (uv_create r c settings.toroidal) list = [] ∧
        ∃ z ∈ (outside (uv_create r c settings.toroidal) (pairsEnd list)).take 1,
          ¬(uv_create r c settings.toroidal).Rejects z := by
  rw [← setup_none_iff hheader, main, hoptions]
  simp only [hinfile, Option.bind_eq_bind, Option.bind_some]
  cases hsetup : setup settings.toroidal infile with
  | none => exact iff_of_true rfl rfl
  | some populated =>
      obtain ⟨out, hout⟩ := run_isSome settings w' populated
        fun uA uB heq => setup_sameSize hheader (heq ▸ hsetup)
      simp [hout]

/-- On a torus, a pair in the column behind the last one. -/
theorem main_leaves_grid_iff_column_three :
    main false [.t, .n (-1)] ⟨fun _ => none, ['3', ' ', '3', '\n', '1', ' ', '3'], []⟩ = none :=
  (main_leaves_grid_iff (show getopts _ _ _ =
      (⟨true, false, -1, some .standard, .standard⟩, _) from rfl) rfl
    (show fscanf _ = (some (3, 3), ['\n', '1', ' ', '3']) by decide +kernel)).mpr
    (.inl ⟨(1, 3), by decide +kernel, by decide⟩)

/-- The cells that a list of pairs makes alive. -/
def alive (zs : List (UInt32 × UInt32)) (z : ℤ × ℤ) : Bool := zs.any fun y => place y.1 y.2 = z

end Runs

end FavoriteAssignments.Life
