import FavoriteAssignments.Life.Generation

/-! # The toroidal census

On a toroidal universe the census covers the neighbours across one seam only in the four
straight directions: a diagonal neighbour is counted inside the grid and across both seams,
and missed across exactly one of them. -/

namespace FavoriteAssignments.Life

open Loops CellularAutomaton

/-! ## The unrolled torus -/

/-- The torus as a periodic configuration of the plane. -/
def Universe.unrolled (u : Universe) (z : ℤ × ℤ) : Bool :=
  u.grid (z.1 % u.rows.toNat).toNat (z.2 % u.cols.toNat).toNat

/-- A coordinate of an axis with `size` places. -/
def onAxis (size : UInt32) (i : ℤ) : Prop := 0 ≤ i ∧ i < size.toNat

instance (size : UInt32) (i : ℤ) : Decidable (onAxis size i) := inferInstanceAs (Decidable (_ ∧ _))

/-- From `z`, the diagonal offset `o` leads across exactly one seam. -/
def Universe.oneSeam (u : Universe) (z o : ℤ × ℤ) : Prop :=
  o.1 ≠ 0 ∧ o.2 ≠ 0 ∧ ¬ (onAxis u.rows (z.1 + o.1) ↔ onAxis u.cols (z.2 + o.2))

instance (u : Universe) (z o : ℤ × ℤ) : Decidable (u.oneSeam z o) :=
  inferInstanceAs (Decidable (_ ∧ _ ∧ _))

theorem inGrid_iff_onAxis {u : Universe} {z : ℤ × ℤ} :
    u.inGrid z = true ↔ onAxis u.rows z.1 ∧ onAxis u.cols z.2 :=
  inGrid_iff

theorem unrolled_of_inGrid {u : Universe} {z : ℤ × ℤ} (h : u.inGrid z = true) :
    u.unrolled z = u.cells z := by
  obtain ⟨hr, hc⟩ := inGrid_iff.mp h
  rw [Universe.unrolled, Int.emod_eq_of_lt hr.1 hr.2, Int.emod_eq_of_lt hc.1 hc.2,
    Universe.cells, h]
  rfl

theorem unrolled_place {u : Universe} {r c : UInt32} (hr : r < u.rows) (hc : c < u.cols) :
    u.unrolled (place r c) = u.grid r.toNat c.toNat := by
  rw [unrolled_of_inGrid (inGrid_place.mpr ⟨hr, hc⟩), cells_place hr hc]

/-! ## One seam term -/

/-- From the coordinate `x`, the displacement `d` leaves the axis exactly when `guard` holds,
and then comes back at `y`. -/
structure Wraps (size x : UInt32) (d : ℤ) (guard : Bool) (y : UInt32) : Prop where
  guard_iff : guard = true ↔ ¬ onAxis size (x.toNat + d)
  index : guard = true → (y.toNat : ℤ) = (x.toNat + d) % size.toNat

section Axis

variable {size x : UInt32}

theorem Wraps.pred (hx : x < size) : Wraps size x (-1) (x == 0) (size - 1) := by
  have hx' := UInt32.lt_iff_toNat_lt.mp hx
  have hzero : (x == 0) = true ↔ x.toNat = 0 := by
    rw [beq_iff_eq, ← UInt32.toNat_inj, UInt32.toNat_zero]
  constructor
  · rw [hzero, onAxis]
    omega
  · intro h
    rw [hzero.mp h, toNat_pred (pos_of_lt hx), ← Int.add_emod_right,
      Int.emod_eq_of_lt (by omega) (by omega)]
    omega

theorem Wraps.succ (hx : x < size) : Wraps size x 1 (x == size - 1) 0 := by
  have hx' := UInt32.lt_iff_toNat_lt.mp hx
  have hlast : (x == size - 1) = true ↔ x.toNat = size.toNat - 1 := by
    rw [beq_iff_eq, ← UInt32.toNat_inj, toNat_pred (pos_of_lt hx)]
  constructor
  · rw [hlast, onAxis]
    omega
  · intro h
    have hsize : (x.toNat : ℤ) + 1 = size.toNat := by rw [hlast.mp h]; omega
    rw [hsize, Int.emod_self, UInt32.toNat_zero, Nat.cast_zero]

theorem onAxis_self (hx : x < size) : onAxis size x.toNat :=
  ⟨Int.natCast_nonneg _, Int.ofNat_lt.mpr (UInt32.lt_iff_toNat_lt.mp hx)⟩

theorem self_eq_emod (hx : x < size) : (x.toNat : ℤ) = (x.toNat + 0) % size.toNat := by
  rw [add_zero, Int.emod_eq_of_lt (onAxis_self hx).1 (onAxis_self hx).2]

end Axis

/-- What the seam terms add for the offset `o`. -/
def Universe.across (u : Universe) (z o : ℤ × ℤ) : ℕ :=
  if u.inGrid (z + o) = true ∨ u.oneSeam z o then 0 else (u.unrolled (z + o)).toNat

theorem lt_of_toNat_eq_emod {size y : UInt32} {i : ℤ} (hsize : 0 < size.toNat)
    (h : (y.toNat : ℤ) = i % size.toNat) : y < size := by
  have := Int.emod_lt_of_pos i (show (0 : ℤ) < size.toNat by omega)
  exact UInt32.lt_iff_toNat_lt.mpr (by omega)

theorem countIf_across {u : Universe} {r c r' c' : UInt32} {a b : ℤ} {guard : Bool}
    (hr : r < u.rows) (hc : c < u.cols)
    (hguard : guard = true ↔
      ¬ (u.inGrid (place r c + (a, b)) = true ∨ u.oneSeam (place r c) (a, b)))
    (hrow : guard = true → (r'.toNat : ℤ) = (r.toNat + a) % u.rows.toNat)
    (hcol : guard = true → (c'.toNat : ℤ) = (c.toNat + b) % u.cols.toNat) (n : ℕ) :
    countIf guard u r' c' (UInt32.ofNat n) =
      some (UInt32.ofNat (n + u.across (place r c) (a, b))) := by
  cases hg : guard with
  | false =>
      have hout := not_not.mp (mt hguard.mpr (by simp [hg]))
      rw [Universe.across, if_pos hout]
      rfl
  | true =>
      have hrow := hrow hg
      have hcol := hcol hg
      have hcell : u.unrolled (place r c + (a, b)) = u.grid r'.toNat c'.toNat := by
        simp only [Universe.unrolled, place, Prod.mk_add_mk, ← hrow, ← hcol, Int.toNat_natCast]
      rw [Universe.across, if_neg (hguard.mp hg), hcell, countIf, if_pos rfl,
        uv_get_cell_eq (lt_of_toNat_eq_emod (pos_of_lt hr) hrow)
          (lt_of_toNat_eq_emod (pos_of_lt hc) hcol)]
      cases u.grid r'.toNat c'.toNat
      · simp
      · simp [UInt32.ofNat_add]

section Terms

variable {u : Universe} {r c r' c' : UInt32} {a b : ℤ} {g g₁ g₂ : Bool}

/-- A seam term for a row above or below. -/
theorem countIf_row (hrow : Wraps u.rows r a g r') (hr : r < u.rows) (hc : c < u.cols) (n : ℕ) :
    countIf g u r' c (UInt32.ofNat n) =
      some (UInt32.ofNat (n + u.across (place r c) (a, 0))) := by
  apply countIf_across hr hc _ hrow.index (fun _ => self_eq_emod hc)
  rw [hrow.guard_iff, inGrid_iff_onAxis, Universe.oneSeam]
  simp [place, onAxis_self hc]

/-- A seam term for a column to the left or to the right. -/
theorem countIf_column (hcol : Wraps u.cols c b g c') (hr : r < u.rows) (hc : c < u.cols)
    (n : ℕ) : countIf g u r c' (UInt32.ofNat n) =
      some (UInt32.ofNat (n + u.across (place r c) (0, b))) := by
  apply countIf_across hr hc _ (fun _ => self_eq_emod hr) hcol.index
  rw [hcol.guard_iff, inGrid_iff_onAxis, Universe.oneSeam]
  simp [place, onAxis_self hr]

/-- A seam term for a corner, which is guarded by both seams. -/
theorem countIf_corner (hrow : Wraps u.rows r a g₁ r') (hcol : Wraps u.cols c b g₂ c')
    (ha : a ≠ 0) (hb : b ≠ 0) (hr : r < u.rows) (hc : c < u.cols) (n : ℕ) :
    countIf (g₂ && g₁) u r' c' (UInt32.ofNat n) =
      some (UInt32.ofNat (n + u.across (place r c) (a, b))) := by
  have hboth : (g₂ && g₁) = true → g₁ = true ∧ g₂ = true := by
    rw [Bool.and_eq_true]
    exact And.symm
  apply countIf_across hr hc _ (fun h => hrow.index (hboth h).1) (fun h => hcol.index (hboth h).2)
  rw [Bool.and_eq_true, hrow.guard_iff, hcol.guard_iff, inGrid_iff_onAxis, Universe.oneSeam]
  simp only [place, Prod.mk_add_mk, ne_eq, ha, hb, not_false_eq_true, true_and]
  tauto

end Terms

theorem seams_eq {u : Universe} {r c : UInt32} (hr : r < u.rows) (hc : c < u.cols) (n : ℕ) :
    seams u r c (UInt32.ofNat n) =
      some (UInt32.ofNat (n + ∑ o ∈ moore, u.across (place r c) o)) := by
  have above := countIf_row (Wraps.pred hr) hr hc
  have left := countIf_column (Wraps.pred hc) hr hc
  have bottom := countIf_row (Wraps.succ hr) hr hc
  have right := countIf_column (Wraps.succ hc) hr hc
  have bottom_right := countIf_corner (Wraps.succ hr) (Wraps.succ hc) (by decide) (by decide) hr hc
  have top_right := countIf_corner (Wraps.pred hr) (Wraps.succ hc) (by decide) (by decide) hr hc
  have top_left := countIf_corner (Wraps.pred hr) (Wraps.pred hc) (by decide) (by decide) hr hc
  have bottom_left := countIf_corner (Wraps.succ hr) (Wraps.pred hc) (by decide) (by decide) hr hc
  simp only [seams, above, left, bottom, right, bottom_right, top_right, top_left, bottom_left,
    Option.bind_eq_bind, Option.bind_some, sum_moore, Nat.add_assoc]

/-! ## The census of a torus -/

/-- Inside the grid and across the seams, every neighbour of the torus is counted once, the
diagonal ones across exactly one seam excepted. -/
theorem uv_census_toroidal {u : Universe} (htor : u.toroidal = true) {r c : UInt32}
    (hr : r < u.rows) (hc : c < u.cols) : uv_census u r c = some (UInt32.ofNat
      (∑ o ∈ moore, if u.oneSeam (place r c) o then 0
        else (u.unrolled (place r c + o)).toNat)) := by
  rw [uv_census_eq hr hc, htor, if_pos rfl, seams_eq hr hc, census_eq_sum,
    ← Finset.sum_add_distrib]
  congr 2
  apply Finset.sum_congr rfl
  intro o _
  rw [Universe.across]
  cases hz : u.inGrid (place r c + o) with
  | true =>
      have hseam : ¬ u.oneSeam (place r c) o := by
        obtain ⟨hrow, hcol⟩ := inGrid_iff_onAxis.mp hz
        intro h
        exact h.2.2 (iff_of_true hrow hcol)
      rw [if_pos (.inl rfl), if_neg hseam, unrolled_of_inGrid hz, Nat.add_zero]
  | false =>
      rw [Universe.cells, hz]
      simp

theorem ofNat_inj_of_le {m n : ℕ} (hm : m ≤ 8) (hn : n ≤ 8) :
    UInt32.ofNat m = UInt32.ofNat n ↔ m = n := by
  refine ⟨fun h => ?_, fun h => h ▸ rfl⟩
  have h' := congrArg UInt32.toNat h
  rwa [UInt32.toNat_ofNat_of_lt' (lt_of_le_of_lt hm (by decide)),
    UInt32.toNat_ofNat_of_lt' (lt_of_le_of_lt hn (by decide))] at h'

/-- No live cell is the neighbour of the cell at `z` across exactly one seam. -/
def Universe.clearAt (u : Universe) (z : ℤ × ℤ) : Prop :=
  ∀ o ∈ moore, u.oneSeam z o → u.unrolled (z + o) = false

theorem uv_census_eq_census_iff {u : Universe} (htor : u.toroidal = true) {r c : UInt32}
    (hr : r < u.rows) (hc : c < u.cols) :
    uv_census u r c = some (UInt32.ofNat (census moore u.unrolled (place r c))) ↔
      u.clearAt (place r c) := by
  have hle : (∑ o ∈ moore, if u.oneSeam (place r c) o then 0
      else (u.unrolled (place r c + o)).toNat) ≤ census moore u.unrolled (place r c) := by
    rw [census_eq_sum]
    apply Finset.sum_le_sum
    intro o _
    split
    · exact Nat.zero_le _
    · exact le_rfl
  have hcensus := census_moore_le u.unrolled (place r c)
  rw [uv_census_toroidal htor hr hc, Option.some.injEq, ofNat_inj_of_le (hle.trans hcensus) hcensus]
  exact sum_ite_eq_census_iff _ _

/-! ## Cyclic shifts -/

/-- The grid read from a shifted origin. -/
def Universe.shift (u : Universe) (s : ℤ × ℤ) : Universe :=
  { u with grid := fun r c => u.unrolled (((r : ℤ), (c : ℤ)) + s) }

theorem unrolled_emod (u : Universe) (z o : ℤ × ℤ) :
    u.unrolled ((z.1 % u.rows.toNat, z.2 % u.cols.toNat) + o) = u.unrolled (z + o) := by
  simp [Universe.unrolled]

theorem step_emod (u : Universe) (z : ℤ × ℤ) :
    step conway moore u.unrolled (z.1 % u.rows.toNat, z.2 % u.cols.toNat) =
      step conway moore u.unrolled z := by
  have hcell := unrolled_emod u z 0
  rw [add_zero, add_zero] at hcell
  simp only [step, census, hcell, unrolled_emod]

theorem unrolled_shift {u : Universe} (hrows : 0 < u.rows) (hcols : 0 < u.cols) (s : ℤ × ℤ) :
    (u.shift s).unrolled = CellularAutomaton.translate s u.unrolled := by
  have hrows' := UInt32.lt_iff_toNat_lt.mp hrows
  have hcols' := UInt32.lt_iff_toNat_lt.mp hcols
  rw [UInt32.toNat_zero] at hrows' hcols'
  funext z
  have hr := Int.emod_nonneg z.1 (show (u.rows.toNat : ℤ) ≠ 0 by omega)
  have hc := Int.emod_nonneg z.2 (show (u.cols.toNat : ℤ) ≠ 0 by omega)
  rw [CellularAutomaton.translate, ← unrolled_emod]
  simp only [Universe.unrolled, Universe.shift, Int.toNat_of_nonneg hr, Int.toNat_of_nonneg hc]

/-- Every cell of the universe has its full census. -/
def Universe.seamsClear (u : Universe) : Prop :=
  ∀ r c, r < u.rows → c < u.cols → u.clearAt (place r c)

/-- Every place of the plane lies over a cell of the torus. -/
theorem exists_place_emod {u : Universe} (hrows : 0 < u.rows) (hcols : 0 < u.cols) (z : ℤ × ℤ) :
    ∃ r c, r < u.rows ∧ c < u.cols ∧
      place r c = (z.1 % u.rows.toNat, z.2 % u.cols.toNat) := by
  have hrows' := UInt32.lt_iff_toNat_lt.mp hrows
  have hcols' := UInt32.lt_iff_toNat_lt.mp hcols
  rw [UInt32.toNat_zero] at hrows' hcols'
  have hz : u.inGrid (z.1 % u.rows.toNat, z.2 % u.cols.toNat) = true :=
    inGrid_iff.mpr ⟨⟨Int.emod_nonneg _ (by omega), Int.emod_lt_of_pos _ (by omega)⟩,
      Int.emod_nonneg _ (by omega), Int.emod_lt_of_pos _ (by omega)⟩
  obtain ⟨r, c, hr, hc, h⟩ := exists_place hz
  exact ⟨r, c, hr, hc, h.symm⟩

/-- Where the census is right, a generation is a step of the automaton on the torus. -/
theorem generation_toroidal {uA uB : Universe} (hsize : SameSize uA uB)
    (htor : uA.toroidal = true) (hrows : 0 < uA.rows) (hcols : 0 < uA.cols)
    (hclear : uA.seamsClear) :
    Yields (generation uA uB) fun u => SameSize uA u ∧
      u.unrolled = step conway moore uA.unrolled := by
  apply (generation_yields hsize _ fun r c hr hc =>
    (uv_census_eq_census_iff htor hr hc).mpr (hclear r c hr hc)).mono
  intro u hu
  refine ⟨hu.size, ?_⟩
  funext z
  obtain ⟨r, c, hr, hc, hz⟩ := exists_place_emod hrows hcols z
  have hcell := hu.cells r c hr hc trivial
  rw [toNat_census, ← unrolled_place hr hc, ← unrolled_place (hu.size.rows ▸ hr)
    (hu.size.cols ▸ hc)] at hcell
  rw [← step_emod, ← hz, step, ← hcell, hz, hu.size.rows, hu.size.cols]
  have hself := unrolled_emod u z 0
  rw [add_zero, add_zero] at hself
  exact hself.symm

theorem generation_shift {u uB uB' : Universe} (htor : u.toroidal = true) (hrows : 0 < u.rows)
    (hcols : 0 < u.cols) {s : ℤ × ℤ} (hclear : u.seamsClear) (hclear' : (u.shift s).seamsClear)
    (hsize : SameSize u uB) (hsize' : SameSize u uB') :
    ∃ v w, generation u uB = some v ∧ generation (u.shift s) uB' = some w ∧
      ∀ r c, r < u.rows → c < u.cols →
        w.grid r.toNat c.toNat = (v.shift s).grid r.toNat c.toNat := by
  obtain ⟨v, hv, hvsize, hvcells⟩ := generation_toroidal hsize htor hrows hcols hclear
  have hshift : SameSize (u.shift s) uB' := ⟨hsize'.rows, hsize'.cols, hsize'.toroidal⟩
  obtain ⟨w, hw, hwsize, hwcells⟩ := generation_toroidal hshift htor hrows hcols hclear'
  refine ⟨v, w, hv, hw, ?_⟩
  intro r c hr hc
  calc w.grid r.toNat c.toNat
      = w.unrolled (place r c) := (unrolled_place (hwsize.rows ▸ hr) (hwsize.cols ▸ hc)).symm
    _ = step conway moore (CellularAutomaton.translate s u.unrolled) (place r c) := by
        rw [hwcells, unrolled_shift hrows hcols]
    _ = (v.shift s).grid r.toNat c.toNat := by
        rw [step_translate, ← hvcells]
        rfl

/-- The census of a cell is that of the torus exactly when no neighbour across one seam
only is alive, and where this holds everywhere a generation commutes with a shift. -/
theorem uv_census_torus_iff (u : Universe) (htor : u.toroidal = true) (hrows : 0 < u.rows)
    (hcols : 0 < u.cols) :
    (∀ r c, r < u.rows → c < u.cols →
      (uv_census u r c = some (UInt32.ofNat (census moore u.unrolled (place r c))) ↔
        u.clearAt (place r c))) ∧
    ∀ s uB uB', u.seamsClear → (u.shift s).seamsClear → SameSize u uB → SameSize u uB' →
      ∃ v w, generation u uB = some v ∧ generation (u.shift s) uB' = some w ∧
        ∀ r c, r < u.rows → c < u.cols →
          w.grid r.toNat c.toNat = (v.shift s).grid r.toNat c.toNat :=
  ⟨fun _ _ hr hc => uv_census_eq_census_iff htor hr hc,
    fun _ _ _ hclear hclear' hsize hsize' =>
      generation_shift htor hrows hcols hclear hclear' hsize hsize'⟩

/-- A torus with one live cell, in the lower left corner. -/
def lone : Universe := ⟨3, 3, fun r c => r == 2 && c == 0, true⟩

theorem uv_census_torus_iff_lone :
    (∀ r c, r < lone.rows → c < lone.cols →
      (uv_census lone r c = some (UInt32.ofNat (census moore lone.unrolled (place r c))) ↔
        lone.clearAt (place r c))) ∧
    ∀ s uB uB', lone.seamsClear → (lone.shift s).seamsClear → SameSize lone uB →
      SameSize lone uB' →
      ∃ v w, generation lone uB = some v ∧ generation (lone.shift s) uB' = some w ∧
        ∀ r c, r < lone.rows → c < lone.cols →
          w.grid r.toNat c.toNat = (v.shift s).grid r.toNat c.toNat :=
  uv_census_torus_iff lone rfl (by decide) (by decide)

/-- The corner is a diagonal neighbour of the cell `(0, 1)` across the seam of the rows. -/
theorem lone_not_counted :
    uv_census lone 0 1 = some 0 ∧ census moore lone.unrolled (place 0 1) = 1 := by
  decide

end FavoriteAssignments.Life
