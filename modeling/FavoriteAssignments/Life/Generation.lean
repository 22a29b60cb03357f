import FavoriteAssignments.Life.Universe
import FavoriteAssignments.Library.CellularAutomaton

/-! # Conway's law on a bounded grid

The census of a flat universe is the census of the plane with all cells outside the grid
dead, and a generation overwrites every cell of the second buffer with the next state. -/

namespace FavoriteAssignments.Life

open Loops CellularAutomaton

/-! ## The grid as a configuration of the plane -/

/-- The cells of the plane that the universe has. -/
def Universe.inGrid (u : Universe) (z : ℤ × ℤ) : Bool :=
  0 ≤ z.1 ∧ z.1 < u.rows.toNat ∧ 0 ≤ z.2 ∧ z.2 < u.cols.toNat

/-- The grid in the plane, dead outside. -/
def Universe.cells (u : Universe) (z : ℤ × ℤ) : Bool :=
  u.inGrid z && u.grid z.1.toNat z.2.toNat

/-- A cell of the universe as a place of the plane. -/
def place (r c : UInt32) : ℤ × ℤ := (r.toNat, c.toNat)

/-- The two buffers of the main program. -/
structure SameSize (uA uB : Universe) : Prop where
  rows : uA.rows = uB.rows
  cols : uA.cols = uB.cols
  toroidal : uA.toroidal = uB.toroidal

theorem uv_get_cell_eq {u : Universe} {r c : UInt32} (hr : r < u.rows) (hc : c < u.cols) :
    uv_get_cell u r c = some (u.grid r.toNat c.toNat) :=
  if_pos ⟨hr, hc⟩

theorem inGrid_iff {u : Universe} {z : ℤ × ℤ} : u.inGrid z = true ↔
    (0 ≤ z.1 ∧ z.1 < u.rows.toNat) ∧ 0 ≤ z.2 ∧ z.2 < u.cols.toNat := by
  rw [Universe.inGrid, decide_eq_true_iff, and_assoc]

theorem inGrid_place {u : Universe} {r c : UInt32} :
    u.inGrid (place r c) = true ↔ r < u.rows ∧ c < u.cols := by
  simp [inGrid_iff, place, UInt32.lt_iff_toNat_lt]

theorem cells_place {u : Universe} {r c : UInt32} (hr : r < u.rows) (hc : c < u.cols) :
    u.cells (place r c) = u.grid r.toNat c.toNat := by
  rw [Universe.cells, inGrid_place.mpr ⟨hr, hc⟩]
  rfl

theorem exists_place {u : Universe} {z : ℤ × ℤ} (h : u.inGrid z = true) :
    ∃ r c, r < u.rows ∧ c < u.cols ∧ z = place r c := by
  obtain ⟨⟨hr₀, hr⟩, hc₀, hc⟩ := inGrid_iff.mp h
  have hrow : (UInt32.ofNat z.1.toNat).toNat = z.1.toNat :=
    UInt32.toNat_ofNat_of_lt (lt_trans (by omega) u.rows.toNat_lt)
  have hcol : (UInt32.ofNat z.2.toNat).toNat = z.2.toNat :=
    UInt32.toNat_ofNat_of_lt (lt_trans (by omega) u.cols.toNat_lt)
  have hz : z = place (UInt32.ofNat z.1.toNat) (UInt32.ofNat z.2.toNat) := by
    apply Prod.ext
    · simp only [place, hrow]
      omega
    · simp only [place, hcol]
      omega
  rw [hz, inGrid_place] at h
  exact ⟨_, _, h.1, h.2, hz⟩

/-! ## One guarded term -/

/-- A term whose guard says that the place `z` is in the grid, and whose indices are then
those of `z`, adds the cell at `z`. -/
theorem countIf_eq {u : Universe} {z : ℤ × ℤ} {guard : Bool} {r c : UInt32} (n : ℕ)
    (hguard : guard = u.inGrid z) (hplace : guard = true → place r c = z) :
    countIf guard u r c (UInt32.ofNat n) = some (UInt32.ofNat (n + (u.cells z).toNat)) := by
  cases hg : guard with
  | false =>
      have hz : u.cells z = false := by rw [Universe.cells, ← hguard, hg]; rfl
      simp [countIf, hz]
  | true =>
      obtain rfl := hplace hg
      rw [hg] at hguard
      obtain ⟨hr, hc⟩ := inGrid_place.mp hguard.symm
      rw [countIf, if_pos rfl, uv_get_cell_eq hr hc, cells_place hr hc]
      cases u.grid r.toNat c.toNat
      · simp
      · simp [UInt32.ofNat_add]

/-- From the coordinate `x` of an axis with `size` places, the displacement `d` stays on
the axis exactly when `guard` holds, and then arrives at `y`. -/
structure Reaches (size x : UInt32) (d : ℤ) (guard : Bool) (y : UInt32) : Prop where
  guard_iff : guard = true ↔ 0 ≤ x.toNat + d ∧ x.toNat + d < size.toNat
  index : guard = true → (y.toNat : ℤ) = x.toNat + d

section Axis

variable {size x : UInt32}

theorem pos_of_lt {y : UInt32} (h : x < y) : 0 < y.toNat :=
  Nat.zero_lt_of_lt (UInt32.lt_iff_toNat_lt.mp h)

theorem Reaches.pred (hx : x < size) : Reaches size x (-1) (x > 0) (x - 1) := by
  have hx' := UInt32.lt_iff_toNat_lt.mp hx
  constructor
  · simp only [gt_iff_lt, decide_eq_true_eq, UInt32.lt_iff_toNat_lt, UInt32.toNat_zero]
    omega
  · intro h
    have hpos : 0 < x.toNat := UInt32.lt_iff_toNat_lt.mp (of_decide_eq_true h)
    rw [toNat_pred hpos]
    omega

theorem Reaches.self (hx : x < size) : Reaches size x 0 true x := by
  have hx' := UInt32.lt_iff_toNat_lt.mp hx
  exact ⟨by simpa using hx', by simp⟩

theorem Reaches.succ (hx : x < size) : Reaches size x 1 (x < size - 1) (x + 1) := by
  have hx' := UInt32.lt_iff_toNat_lt.mp hx
  constructor
  · simp only [decide_eq_true_eq, UInt32.lt_iff_toNat_lt, toNat_pred (pos_of_lt hx)]
    omega
  · intro h
    have hlt := UInt32.lt_iff_toNat_lt.mp (of_decide_eq_true h)
    have hsize := (size - 1).toNat_lt
    rw [toNat_succ (by omega), Nat.cast_add_one]

end Axis

/-- A term that looks `a` rows down and `b` columns to the right without leaving the grid. -/
theorem countIf_interior {u : Universe} {r c r' c' : UInt32} {a b : ℤ} {g₁ g₂ : Bool}
    (hrow : Reaches u.rows r a g₁ r') (hcol : Reaches u.cols c b g₂ c') (n : ℕ) :
    countIf (g₁ && g₂) u r' c' (UInt32.ofNat n) =
      some (UInt32.ofNat (n + (u.cells (place r c + (a, b))).toNat)) := by
  apply countIf_eq
  · rw [Bool.eq_iff_iff, Bool.and_eq_true, hrow.guard_iff, hcol.guard_iff, inGrid_iff]
    rfl
  · intro h
    obtain ⟨h₁, h₂⟩ := (Bool.and_eq_true _ _).mp h
    exact Prod.ext (hrow.index h₁) (hcol.index h₂)

/-- The terms that `uv_census` adds when the universe is toroidal. -/
def seams (u : Universe) (r c n : UInt32) : Option UInt32 := do
  let n ← countIf (r == 0) u (u.rows - 1) c n
  let n ← countIf (c == 0) u r (u.cols - 1) n
  let n ← countIf (r == u.rows - 1) u 0 c n
  let n ← countIf (c == u.cols - 1) u r 0 n
  let n ← countIf (c == u.cols - 1 && r == u.rows - 1) u 0 0 n
  let n ← countIf (c == u.cols - 1 && r == 0) u (u.rows - 1) 0 n
  let n ← countIf (c == 0 && r == 0) u (u.rows - 1) (u.cols - 1) n
  countIf (c == 0 && r == u.rows - 1) u 0 (u.cols - 1) n

/-- The first eight terms count the live neighbours inside the grid, and none of them reads
outside of it. -/
theorem uv_census_eq {u : Universe} {r c : UInt32} (hr : r < u.rows) (hc : c < u.cols) :
    uv_census u r c = if u.toroidal then
      seams u r c (UInt32.ofNat (census moore u.cells (place r c)))
    else some (UInt32.ofNat (census moore u.cells (place r c))) := by
  have above := countIf_interior (.pred hr) (.self hc) 0
  have left := countIf_interior (.self hr) (.pred hc)
  have bottom := countIf_interior (.succ hr) (.self hc)
  have right := countIf_interior (.self hr) (.succ hc)
  have bottom_right := countIf_interior (.succ hr) (.succ hc)
  have top_right := countIf_interior (.pred hr) (.succ hc)
  have top_left := countIf_interior (.pred hr) (.pred hc)
  have bottom_left := countIf_interior (.succ hr) (.pred hc)
  simp only [Bool.and_true, Bool.true_and] at above left bottom right
  rw [Bool.and_comm] at bottom_right top_right top_left bottom_left
  rw [show UInt32.ofNat 0 = 0 from rfl, Nat.zero_add] at above
  rw [census_eq_sum, sum_moore]
  simp only [uv_census, seams, above, left, bottom, right, bottom_right, top_right, top_left,
    bottom_left, Option.bind_eq_bind, Option.bind_some, Option.pure_def]

/-! ## A generation overwrites the second buffer -/

theorem conway_eq (alive : Bool) (n : UInt32) :
    conway alive n.toNat =
      if n = 3 ∧ alive = false then true
      else if alive = true ∧ (n = 2 ∨ n = 3) then true else false := by
  have h2 : n = 2 ↔ n.toNat = 2 := UInt32.toNat_inj.symm
  have h3 : n = 3 ↔ n.toNat = 3 := UInt32.toNat_inj.symm
  cases alive <;> simp [conway, h2, h3]

theorem evolve_eq {uA uB : Universe} {row column n : UInt32} (hr : row < uA.rows)
    (hc : column < uA.cols) (hn : uv_census uA row column = some n) :
    evolve uA row column uB =
      setCell uB row column (conway (uA.grid row.toNat column.toNat) n.toNat) := by
  rw [conway_eq, evolve, hn, uv_get_cell_eq hr hc]
  simp only [Option.bind_eq_bind, Option.bind_some, uv_live_cell, uv_dead_cell]
  split
  · rfl
  · split <;> rfl

/-- The buffer `u` has the size of `uA` and already holds `next` in the cells of `done`. -/
structure Written (uA : Universe) (next : UInt32 → UInt32 → Bool) (done : UInt32 → UInt32 → Prop)
    (u : Universe) : Prop where
  size : SameSize uA u
  cells : ∀ r c, r < uA.rows → c < uA.cols → done r c → u.grid r.toNat c.toNat = next r c

section Written

variable {uA u : Universe} {next : UInt32 → UInt32 → Bool} {done done' : UInt32 → UInt32 → Prop}

theorem Written.mono (h : Written uA next done u)
    (hdone : ∀ r c, r < uA.rows → c < uA.cols → done' r c → done r c) :
    Written uA next done' u :=
  ⟨h.size, fun r c hr hc hd => h.cells r c hr hc (hdone r c hr hc hd)⟩

/-- Storing the next state of one more cell. -/
theorem Written.set {row column : UInt32} (h : Written uA next done u) (hr : row < uA.rows)
    (hc : column < uA.cols) : Yields (setCell u row column (next row column))
      (Written uA next fun r c => done r c ∨ r = row ∧ c = column) := by
  rw [setCell, if_pos ⟨h.size.rows ▸ hr, h.size.cols ▸ hc⟩, yields_some]
  refine ⟨⟨h.size.rows, h.size.cols, h.size.toroidal⟩, ?_⟩
  intro r c hr' hc' hd
  by_cases hrow : r = row
  · subst hrow
    by_cases hcol : c = column
    · subst hcol
      simp
    · have hne : c.toNat ≠ column.toNat := fun he => hcol (UInt32.toNat_inj.mp he)
      simpa [hne] using h.cells r c hr' hc' (by simpa [hcol] using hd)
  · have hne : r.toNat ≠ row.toNat := fun he => hrow (UInt32.toNat_inj.mp he)
    simpa [hne] using h.cells r c hr' hc' (by simpa [hrow] using hd)

variable (hevolve : ∀ r c u, r < uA.rows → c < uA.cols →
  evolve uA r c u = setCell u r c (next r c))
include hevolve

/-- The inner loop writes one column. -/
theorem column_yields {column : UInt32} (hcolumn : column < uA.cols)
    (hu : Written uA next (fun _ c => c.toNat < column.toNat) u) :
    Yields (forUp 0 uA.rows (fun row => evolve uA row column) u)
      (Written uA next fun _ c => c.toNat < column.toNat + 1) := by
  have hrows : Yields (forUp 0 uA.rows (fun row => evolve uA row column) u)
      (Written uA next fun r c => c.toNat < column.toNat ∨ c = column ∧ r < uA.rows) := by
    apply forUp_rule (fun row => Written uA next fun r c =>
      c.toNat < column.toNat ∨ c = column ∧ r.toNat < row) UInt32.zero_le
    · exact hu.mono fun r c _ _ h => by simpa using h
    · intro row u _ hrow hu
      rw [hevolve row column u hrow hcolumn]
      apply (hu.set hrow hcolumn).mono
      intro u' hu'
      apply hu'.mono
      rintro r c _ _ (h | ⟨rfl, h⟩)
      · exact .inl (.inl h)
      · rcases Nat.lt_succ_iff_lt_or_eq.mp h with h | h
        · exact .inl (.inr ⟨rfl, h⟩)
        · exact .inr ⟨UInt32.toNat_inj.mp h, rfl⟩
  apply hrows.mono
  intro u' hu'
  apply hu'.mono
  intro r c hr _ h
  rcases Nat.lt_succ_iff_lt_or_eq.mp h with h | h
  · exact .inl h
  · exact .inr ⟨UInt32.toNat_inj.mp h, hr⟩

/-- The outer loop writes the whole grid. -/
theorem columns_yield (hsize : SameSize uA u) :
    Yields (generation uA u) (Written uA next fun _ _ => True) := by
  have hcolumns : Yields (generation uA u) (Written uA next fun _ c => c < uA.cols) := by
    apply forUp_rule (fun column => Written uA next fun _ c => c.toNat < column) UInt32.zero_le
    · exact ⟨hsize, fun r c _ _ h => absurd h (Nat.not_lt_zero _)⟩
    · intro column u _ hcolumn hu
      exact column_yields hevolve hcolumn hu
  apply hcolumns.mono
  intro u' hu'
  exact hu'.mono fun _ _ _ hc _ => hc

end Written

/-- Whatever the second buffer held, a generation leaves in every cell the next state that
the census and the old cell determine. -/
theorem generation_yields {uA uB : Universe} (hsize : SameSize uA uB)
    (N : UInt32 → UInt32 → UInt32)
    (hN : ∀ r c, r < uA.rows → c < uA.cols → uv_census uA r c = some (N r c)) :
    Yields (generation uA uB) (Written uA
      (fun r c => conway (uA.grid r.toNat c.toNat) (N r c).toNat) fun _ _ => True) :=
  columns_yield (fun r c _ hr hc => evolve_eq hr hc (hN r c hr hc)) hsize

/-! ## Any number of generations -/

theorem uv_census_flat {u : Universe} (hflat : u.toroidal = false) {r c : UInt32}
    (hr : r < u.rows) (hc : c < u.cols) :
    uv_census u r c = some (UInt32.ofNat (census moore u.cells (place r c))) := by
  rw [uv_census_eq hr hc, hflat]
  rfl

theorem toNat_census (X : ℤ × ℤ → Bool) (z : ℤ × ℤ) :
    (UInt32.ofNat (census moore X z)).toNat = census moore X z :=
  UInt32.toNat_ofNat_of_lt (lt_of_le_of_lt (census_moore_le X z) (by decide))

theorem SameSize.trans {u₁ u₂ u₃ : Universe} (h : SameSize u₁ u₂) (h' : SameSize u₂ u₃) :
    SameSize u₁ u₃ :=
  ⟨h.rows.trans h'.rows, h.cols.trans h'.cols, h.toroidal.trans h'.toroidal⟩

theorem SameSize.symm {u₁ u₂ : Universe} (h : SameSize u₁ u₂) : SameSize u₂ u₁ :=
  ⟨h.rows.symm, h.cols.symm, h.toroidal.symm⟩

theorem SameSize.inGrid {uA u : Universe} (h : SameSize uA u) : u.inGrid = uA.inGrid := by
  funext z
  rw [Universe.inGrid, Universe.inGrid, h.rows, h.cols]

/-- One generation of a flat universe is one step of the bounded automaton. -/
theorem generation_flat {uA uB : Universe} (hsize : SameSize uA uB)
    (hflat : uA.toroidal = false) :
    Yields (generation uA uB) fun u => SameSize uA u ∧
      u.cells = stepWithin uA.inGrid conway moore uA.cells := by
  apply (generation_yields hsize _ fun r c hr hc => uv_census_flat hflat hr hc).mono
  intro u hu
  refine ⟨hu.size, ?_⟩
  funext z
  rw [stepWithin, Universe.cells, hu.size.inGrid]
  cases hz : uA.inGrid z with
  | false => rfl
  | true =>
      obtain ⟨r, c, hr, hc, rfl⟩ := exists_place hz
      rw [step, cells_place hr hc, ← toNat_census]
      exact hu.cells r c hr hc trivial

theorem generations_flat (k : ℕ) {uA uB : Universe} (hsize : SameSize uA uB)
    (hflat : uA.toroidal = false) :
    Yields (generations k uA uB) fun p => SameSize uA p.1 ∧
      p.1.cells = (stepWithin uA.inGrid conway moore)^[k] uA.cells := by
  induction k generalizing uA uB with
  | zero => exact ⟨(uA, uB), rfl, ⟨rfl, rfl, rfl⟩, rfl⟩
  | succ k ih =>
      rw [generations]
      apply (generation_flat hsize hflat).bind
      intro next hnext
      apply (ih hnext.1.symm (hnext.1.toroidal ▸ hflat)).mono
      intro p hp
      refine ⟨hnext.1.trans hp.1, ?_⟩
      rw [hp.2, hnext.1.inGrid, hnext.2, Function.iterate_succ_apply]

/-- On a flat universe the generation loop computes Conway's rule with every cell outside
the grid dead, from any content of the second buffer. -/
theorem generations_conway (k : ℕ) (uA uB : Universe) (hsize : SameSize uA uB)
    (hflat : uA.toroidal = false) :
    (∀ r c, r < uA.rows → c < uA.cols →
      uv_census uA r c = some (UInt32.ofNat (census moore uA.cells (place r c)))) ∧
    ∃ uA' uB', generations k uA uB = some (uA', uB') ∧ SameSize uA uA' ∧
      ∀ r c, r < uA.rows → c < uA.cols → uA'.grid r.toNat c.toNat =
        (stepWithin uA.inGrid conway moore)^[k] uA.cells (place r c) := by
  refine ⟨fun r c hr hc => uv_census_flat hflat hr hc, ?_⟩
  obtain ⟨⟨uA', uB'⟩, hrun, hsize', hcells⟩ := generations_flat k hsize hflat
  refine ⟨uA', uB', hrun, hsize', ?_⟩
  intro r c hr hc
  rw [← hcells, cells_place (hsize'.rows ▸ hr) (hsize'.cols ▸ hc)]

/-- Three cells in the middle row, and a buffer full of live cells. -/
def blinker : Universe := ⟨3, 3, fun r _ => r == 1, false⟩

def staleBuffer : Universe := ⟨3, 3, fun _ _ => true, false⟩

theorem generations_conway_blinker :
    (∀ r c, r < blinker.rows → c < blinker.cols →
      uv_census blinker r c = some (UInt32.ofNat (census moore blinker.cells (place r c)))) ∧
    ∃ uA' uB', generations 7 blinker staleBuffer = some (uA', uB') ∧ SameSize blinker uA' ∧
      ∀ r c, r < blinker.rows → c < blinker.cols → uA'.grid r.toNat c.toNat =
        (stepWithin blinker.inGrid conway moore)^[7] blinker.cells (place r c) :=
  generations_conway 7 blinker staleBuffer ⟨rfl, rfl, rfl⟩ rfl

end FavoriteAssignments.Life
