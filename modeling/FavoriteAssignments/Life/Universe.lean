import Mathlib.Data.UInt
import Mathlib.Logic.Function.Basic
import FavoriteAssignments.Library.Loops

/-! # Universes and generations

The grid of `universe.c` and the generation loop of `life.c`. An access to a cell that the
grid does not have is a failure. -/

namespace FavoriteAssignments.Life

open Loops

/-- `struct Universe`. `grid` has `rows` rows of `cols` cells, other places mean nothing. -/
structure Universe where
  rows : UInt32
  cols : UInt32
  grid : ℕ → ℕ → Bool
  toroidal : Bool

/-! ## Cells -/

def uv_get_cell (u : Universe) (r c : UInt32) : Option Bool :=
  if r < u.rows ∧ c < u.cols then some (u.grid r.toNat c.toNat) else none

/-- `u->grid[r][c] = alive`. -/
def setCell (u : Universe) (r c : UInt32) (alive : Bool) : Option Universe :=
  if r < u.rows ∧ c < u.cols then
    some { u with
      grid := Function.update u.grid r.toNat (Function.update (u.grid r.toNat) c.toNat alive) }
  else none

def uv_live_cell (u : Universe) (r c : UInt32) : Option Universe := setCell u r c true

def uv_dead_cell (u : Universe) (r c : UInt32) : Option Universe := setCell u r c false

/-! ## The census -/

/-- `if (guard && u->grid[r][c]) n_neighbs++`: the cell is read only behind its guard. -/
def countIf (guard : Bool) (u : Universe) (r c n_neighbs : UInt32) : Option UInt32 :=
  if guard then
    (uv_get_cell u r c).map fun alive => if alive then n_neighbs + 1 else n_neighbs
  else some n_neighbs

def uv_census (u : Universe) (r c : UInt32) : Option UInt32 := do
  let n ← countIf (r > 0) u (r - 1) c 0
  let n ← countIf (c > 0) u r (c - 1) n
  let n ← countIf (r < u.rows - 1) u (r + 1) c n
  let n ← countIf (c < u.cols - 1) u r (c + 1) n
  let n ← countIf (c < u.cols - 1 && r < u.rows - 1) u (r + 1) (c + 1) n
  let n ← countIf (c < u.cols - 1 && r > 0) u (r - 1) (c + 1) n
  let n ← countIf (c > 0 && r > 0) u (r - 1) (c - 1) n
  let n ← countIf (c > 0 && r < u.rows - 1) u (r + 1) (c - 1) n
  if u.toroidal then
    let n ← countIf (r == 0) u (u.rows - 1) c n
    let n ← countIf (c == 0) u r (u.cols - 1) n
    let n ← countIf (r == u.rows - 1) u 0 c n
    let n ← countIf (c == u.cols - 1) u r 0 n
    let n ← countIf (c == u.cols - 1 && r == u.rows - 1) u 0 0 n
    let n ← countIf (c == u.cols - 1 && r == 0) u (u.rows - 1) 0 n
    let n ← countIf (c == 0 && r == 0) u (u.rows - 1) (u.cols - 1) n
    countIf (c == 0 && r == u.rows - 1) u 0 (u.cols - 1) n
  else return n

/-! ## Generations -/

/-- The body of the two inner loops, which reads `uA` and writes one cell of `uB`. -/
def evolve (uA : Universe) (row column : UInt32) (uB : Universe) : Option Universe := do
  let census ← uv_census uA row column
  let alive ← uv_get_cell uA row column
  if census = 3 ∧ alive = false then uv_live_cell uB row column
  else if alive = true ∧ (census = 2 ∨ census = 3) then uv_live_cell uB row column
  else uv_dead_cell uB row column

/-- One generation, which overwrites `uB`. -/
def generation (uA uB : Universe) : Option Universe :=
  forUp 0 uA.cols (fun column => forUp 0 uA.rows fun row => evolve uA row column) uB

/-- The generation loop: `uA` and `uB` are swapped after every generation. -/
def generations : ℕ → Universe → Universe → Option (Universe × Universe)
  | 0, uA, uB => some (uA, uB)
  | k + 1, uA, uB => (generation uA uB).bind fun next => generations k next uA

end FavoriteAssignments.Life
