/-!
A grid: a table of optional cells, kept row after row in one array.

Row `r`, column `c` of a grid of width `w` is cell `r * w + c`. A place outside the grid reads as an
empty cell and cannot be set, so no two places share a cell.
-/

namespace TableParser

/-- A table of optional values with a fixed number of rows and columns. -/
structure Grid (α : Type) where
  rows : Nat
  width : Nat
  cells : Array (Option α)
  size_cells : cells.size = rows * width
  deriving DecidableEq

namespace Grid

variable {α : Type}

/-- The grid without values. -/
def blank (rows width : Nat) : Grid α :=
  ⟨rows, width, Array.replicate (rows * width) none, Array.size_replicate⟩

instance : Inhabited (Grid α) := ⟨blank 0 0⟩

/-- The value at a place, if there is such a place and it holds one. -/
def get? (g : Grid α) (row col : Nat) : Option α :=
  if row < g.rows ∧ col < g.width then g.cells[row * g.width + col]?.join else none

/-- Puts a value at a place; a place outside changes nothing. -/
def set (g : Grid α) (row col : Nat) (v : α) : Grid α :=
  if row < g.rows ∧ col < g.width then
    { g with
      cells := g.cells.setIfInBounds (row * g.width + col) (some v)
      size_cells := by rw [Array.size_setIfInBounds, g.size_cells] }
  else g

/-- The grid of a list of entries, the last entry for a place winning. -/
def ofEntries (rows width : Nat) (entries : List (Nat × Nat × α)) : Grid α :=
  entries.foldl (fun g (row, col, v) => g.set row col v) (blank rows width)

/-- The values of one row with their columns, in ascending order. -/
def row (g : Grid α) (r : Nat) : List (Nat × α) :=
  (List.range g.width).filterMap fun c => (g.get? r c).map fun v => (c, v)

/-- Every value with its row and column, row after row. -/
def entries (g : Grid α) : List (Nat × Nat × α) :=
  (List.range g.rows).flatMap fun r => (g.row r).map fun (c, v) => (r, c, v)

end Grid

end TableParser
