import TableParser.Grammar.Grid
import TableParser.Grammar.Symbol
/-!
The two parse tables of a grammar.

Non-terminals have the first ids, so the column of a terminal is its id less the number of
non-terminals. The prediction table says which rule expands a non-terminal before a terminal; the
shift-reduce table says what an automaton state does before a terminal and where it goes after a
non-terminal.
-/

namespace TableParser

/-- What a state of the shift-reduce automaton does before a terminal. -/
inductive Action where
  | shift (target : StateId)
  | reduce (rule : RuleId)
  | accept
  deriving DecidableEq, Repr, Inhabited

/-- The column of a terminal where the first `nonTerminals` ids are non-terminals; `none` for one of
those. -/
def terminalColumn (nonTerminals : Nat) (s : SymbolId) : Option Nat :=
  if nonTerminals ≤ s.index then some (s.index - nonTerminals) else none

/-- The terminal of a column. -/
def terminalAt (nonTerminals col : Nat) : SymbolId :=
  SymbolId.ofNat (nonTerminals + col)

/-! ### Prediction -/

/-- An entry of a written prediction table: before `terminal`, `row` becomes `rule`. -/
structure Prediction where
  row : SymbolId
  terminal : SymbolId
  rule : RuleId
  deriving DecidableEq, Repr, Inhabited

/-- An LL(1) table: a row for each non-terminal, a column for each terminal. -/
structure PredictionTable where
  grid : Grid RuleId
  deriving DecidableEq, Inhabited

namespace PredictionTable

/-- How many non-terminals the table has rows for. -/
def nonTerminals (t : PredictionTable) : Nat := t.grid.rows

/-- The table of a list of entries, the last entry for a cell winning. -/
def ofEntries (nonTerminals terminals : Nat) (entries : List Prediction) : PredictionTable :=
  ⟨Grid.ofEntries nonTerminals terminals (entries.filterMap fun e =>
    (terminalColumn nonTerminals e.terminal).map fun col => (e.row.index, col, e.rule))⟩

/-- The rule that expands a non-terminal before a terminal. -/
def get? (t : PredictionTable) (row terminal : SymbolId) : Option RuleId :=
  (terminalColumn t.nonTerminals terminal).bind fun col => t.grid.get? row.index col

/-- The terminals before which a non-terminal can be expanded, ascending. -/
def expected (t : PredictionTable) (row : SymbolId) : List SymbolId :=
  (t.grid.row row.index).map fun (col, _) => terminalAt t.nonTerminals col

/-- The entries of the table, row after row. -/
def entries (t : PredictionTable) : List Prediction :=
  t.grid.entries.map fun (row, col, rule) =>
    ⟨SymbolId.ofNat row, terminalAt t.nonTerminals col, rule⟩

end PredictionTable

/-! ### Shift and reduce -/

/-- A state of a written shift-reduce table. -/
structure StateRow where
  actions : List (SymbolId × Action) := []
  gotos : List (SymbolId × StateId) := []
  deriving DecidableEq, Repr, Inhabited

/-- An LALR(1) table: actions by state and terminal, gotos by state and non-terminal. -/
structure ShiftReduceTable where
  initial : StateId
  actions : Grid Action
  gotos : Grid StateId
  deriving DecidableEq, Inhabited

namespace ShiftReduceTable

/-- How many states the automaton has. -/
def states (t : ShiftReduceTable) : Nat := t.actions.rows

/-- How many non-terminals the table has gotos for. -/
def nonTerminals (t : ShiftReduceTable) : Nat := t.gotos.width

/-- The action entries of numbered rows, those of a non-terminal left out. -/
def actionEntries (nonTerminals : Nat) (rows : List StateRow) : List (Nat × Nat × Action) :=
  rows.zipIdx.flatMap fun (row, s) => row.actions.filterMap fun (sym, a) =>
    (terminalColumn nonTerminals sym).map fun col => (s, col, a)

/-- The goto entries of numbered rows. -/
def gotoEntries (rows : List StateRow) : List (Nat × Nat × StateId) :=
  rows.zipIdx.flatMap fun (row, s) => row.gotos.map fun (sym, target) => (s, sym.index, target)

/-- The table of a list of rows, the last entry for a cell winning. -/
def ofRows (nonTerminals terminals : Nat) (initial : StateId) (rows : List StateRow) :
    ShiftReduceTable :=
  ⟨initial, Grid.ofEntries rows.length terminals (actionEntries nonTerminals rows),
    Grid.ofEntries rows.length nonTerminals (gotoEntries rows)⟩

/-- What a state does before a terminal. -/
def action? (t : ShiftReduceTable) (s : StateId) (terminal : SymbolId) : Option Action :=
  (terminalColumn t.nonTerminals terminal).bind fun col => t.actions.get? s.toNat col

/-- Where a state goes after a non-terminal. -/
def goto? (t : ShiftReduceTable) (s : StateId) (nonTerminal : SymbolId) : Option StateId :=
  t.gotos.get? s.toNat nonTerminal.index

/-- The terminals before which a state has an action, ascending. -/
def expected (t : ShiftReduceTable) (s : StateId) : List SymbolId :=
  (t.actions.row s.toNat).map fun (col, _) => terminalAt t.nonTerminals col

/-- The rows of the table, one for each state. -/
def toRows (t : ShiftReduceTable) : List StateRow :=
  (List.range t.states).map fun s =>
    { actions := (t.actions.row s).map fun (col, a) => (terminalAt t.nonTerminals col, a)
      gotos := (t.gotos.row s).map fun (nt, target) => (SymbolId.ofNat nt, target) }

end ShiftReduceTable

end TableParser
