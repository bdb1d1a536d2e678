import TableParser.Proofs.Grammar.Consistency
/-!
What parse tables answer.

A table is an array of cells, row after row. Every cell has a slot of its own, and an id or a state
outside the table has none, so a look-up answers with the last entry for its cell and with nothing
else. What is expected in a row are the terminals of its filled cells, in ascending order. Written
down and read back, a table is the same.

    cells     row 0 | row 1 | row 2     slot of (row, column) = row * width + column
              · r ·   s · ·   · · t     column of a terminal = its id - number of non-terminals

Main statement: `lookups_exact`.
-/

namespace TableParser

/-! ### Slots -/

namespace Grid

variable {α : Type} {g : Grid α} {r c r' c' i : Nat}

/-- Where a cell stands in the array. -/
def slot? (g : Grid α) (row col : Nat) : Option Nat :=
  if row < g.rows ∧ col < g.width then some (row * g.width + col) else none

theorem slot?_eq_some :
    g.slot? r c = some i ↔ (r < g.rows ∧ c < g.width) ∧ r * g.width + c = i := by
  rw [slot?]
  split <;> simp [*]

/-- A look-up reads the slot of its cell. -/
theorem get?_eq_slot (g : Grid α) (r c : Nat) :
    g.get? r c = (g.slot? r c).bind fun i => g.cells[i]?.join := by
  rw [get?, slot?]
  split <;> rfl

theorem lt_of_slot? (h : g.slot? r c = some i) : i < g.cells.size := by
  obtain ⟨⟨hr, hc⟩, rfl⟩ := slot?_eq_some.1 h
  exact g.place_lt hr hc

/-- Two cells have two slots. -/
theorem slot?_inj (h : g.slot? r c = some i) (h' : g.slot? r' c' = some i) : r = r' ∧ c = c' := by
  obtain ⟨⟨-, hc⟩, rfl⟩ := slot?_eq_some.1 h
  obtain ⟨⟨-, hc'⟩, heq⟩ := slot?_eq_some.1 h'
  exact place_inj hc hc' heq.symm

/-- A row lists its columns in ascending order. -/
theorem row_ascending (g : Grid α) (r : Nat) : (g.row r).Pairwise fun p q => p.1 < q.1 := by
  refine List.pairwise_filterMap.2 (List.pairwise_lt_range.imp ?_)
  intro c c' hlt p hp q hq
  obtain ⟨_, -, rfl⟩ := Option.map_eq_some_iff.1 hp
  obtain ⟨_, -, rfl⟩ := Option.map_eq_some_iff.1 hq
  exact hlt

/-- The terminals of the filled cells of a row ascend, where each has an id. -/
theorem terminals_ascending {nonTerminals : Nat} (h : ∀ p ∈ g.row r, nonTerminals + p.1 < 65536) :
    ((g.row r).map fun p => terminalAt nonTerminals p.1).Pairwise fun s s' =>
      s.index < s'.index := by
  rw [List.pairwise_map]
  refine (g.row_ascending r).imp_of_mem ?_
  intro p q hp hq hlt
  rw [index_terminalAt (h p hp), index_terminalAt (h q hq)]
  exact Nat.add_lt_add_left hlt nonTerminals

/-- A terminal stands in a row where its cell is filled. -/
theorem mem_terminals {nonTerminals : Nat} {s : SymbolId}
    (h : ∀ p ∈ g.row r, nonTerminals + p.1 < 65536) :
    s ∈ (g.row r).map (fun p => terminalAt nonTerminals p.1) ↔
      ((terminalColumn nonTerminals s).bind fun c => g.get? r c).isSome = true := by
  rw [List.mem_map, Option.isSome_iff_exists]
  constructor
  · rintro ⟨⟨c, v⟩, hp, rfl⟩
    rw [terminalColumn_terminalAt (h _ hp)]
    exact ⟨v, mem_row.1 hp⟩
  · rintro ⟨v, hv⟩
    obtain ⟨c, hc, hget⟩ := Option.bind_eq_some_iff.1 hv
    refine ⟨(c, v), mem_row.2 hget, ?_⟩
    rw [terminalAt, ← terminalColumn_eq_some.1 hc, SymbolId.ofNat_index]

end Grid

/-! ### Prediction -/

namespace PredictionTable

/-- Every entry is for a cell of the table. -/
def Accepts (nonTerminals terminals : Nat) (entries : List Prediction) : Prop :=
  entries.forM (Asset.checkPrediction nonTerminals (nonTerminals + terminals)) = .ok ()

/-- The slot that a look-up reads. -/
def slot? (t : PredictionTable) (row terminal : SymbolId) : Option Nat :=
  (terminalColumn t.nonTerminals terminal).bind fun col => t.grid.slot? row.index col

/-- A table answers as the entries say. -/
structure Answers (nonTerminals terminals : Nat) (entries : List Prediction) (t : PredictionTable) :
    Prop where
  /-- A cell holds the last entry for it. -/
  get? : ∀ row terminal rule, t.get? row terminal = some rule ↔
    IsLastFor (fun e => (e.row, e.terminal)) entries ⟨row, terminal, rule⟩
  outside : ∀ row terminal, nonTerminals ≤ row.index ∨ terminal.index < nonTerminals ∨
    nonTerminals + terminals ≤ terminal.index → t.get? row terminal = none
  /-- Every look-up reads one slot, and no two cells share it. -/
  reads : ∀ row terminal, t.get? row terminal = (t.slot? row terminal).bind fun i =>
    t.grid.cells[i]?.join
  slots : ∀ row terminal i, t.slot? row terminal = some i → i < t.grid.cells.size ∧
    ∀ row' terminal', t.slot? row' terminal' = some i → row' = row ∧ terminal' = terminal
  /-- What is expected are the terminals with an entry, in order. -/
  ascending : ∀ row, (t.expected row).Pairwise fun s s' => s.index < s'.index
  expected : ∀ row s, s ∈ t.expected row ↔ (t.get? row s).isSome = true
  /-- The table is made again of its own entries. -/
  accepted : Accepts nonTerminals terminals t.entries
  rebuilt : ofEntries nonTerminals terminals t.entries = t

variable {nonTerminals terminals : Nat} {entries : List Prediction}

theorem accepts_iff :
    Accepts nonTerminals terminals entries ↔ ∀ e ∈ entries, e.row.index < nonTerminals ∧
      nonTerminals ≤ e.terminal.index ∧ e.terminal.index < nonTerminals + terminals := by
  rw [Accepts, forM_eq_ok]
  simp only [Asset.checkPrediction_eq_ok]

theorem slot?_inj {t : PredictionTable} {row terminal row' terminal' : SymbolId} {i : Nat}
    (h : t.slot? row terminal = some i) (h' : t.slot? row' terminal' = some i) :
    row' = row ∧ terminal' = terminal := by
  obtain ⟨col, hcol, hslot⟩ := Option.bind_eq_some_iff.1 h
  obtain ⟨col', hcol', hslot'⟩ := Option.bind_eq_some_iff.1 h'
  obtain ⟨hrow, rfl⟩ := Grid.slot?_inj hslot' hslot
  refine ⟨SymbolId.index_inj.1 hrow, SymbolId.index_inj.1 ?_⟩
  rw [terminalColumn_eq_some.1 hcol, terminalColumn_eq_some.1 hcol']

/-- What a table predicts is the last entry for the cell. -/
theorem get?_eq_some (h : Accepts nonTerminals terminals entries) {row terminal : SymbolId}
    {rule : RuleId} :
    (ofEntries nonTerminals terminals entries).get? row terminal = some rule ↔
      IsLastFor (fun e => (e.row, e.terminal)) entries ⟨row, terminal, rule⟩ := by
  rw [← mem_entries_ofEntries (accepts_iff.1 h),
    mem_entries (named_ofEntries nonTerminals terminals entries)]

theorem answers_ofEntries (h : Accepts nonTerminals terminals entries) :
    (ofEntries nonTerminals terminals entries).Answers nonTerminals terminals entries where
  get? _ _ _ := get?_eq_some h
  outside row terminal hout := by
    rw [get?_ofEntries, written, if_neg (by omega)]
  reads row terminal := by
    rw [PredictionTable.get?, slot?, Option.bind_assoc]
    simp only [Grid.get?_eq_slot]
  slots row terminal i hslot := by
    obtain ⟨col, -, hcell⟩ := Option.bind_eq_some_iff.1 hslot
    exact ⟨Grid.lt_of_slot? hcell, fun _ _ hslot' => slot?_inj hslot hslot'⟩
  ascending row :=
    Grid.terminals_ascending fun p hp => (named_ofEntries _ _ _ _ _ _ (Grid.mem_row.1 hp)).2
  expected row s :=
    Grid.mem_terminals fun p hp => (named_ofEntries _ _ _ _ _ _ (Grid.mem_row.1 hp)).2
  accepted := accepts_iff.2 fun e he => accepts_iff.1 h e (mem_of_mem_entries he)
  rebuilt := ofEntries_entries_ofEntries nonTerminals terminals entries

end PredictionTable

/-! ### Shift and reduce -/

namespace ShiftReduceTable

/-- There is an initial state, and every entry is for a cell of the table. -/
def Accepts (nonTerminals terminals : Nat) (initial : StateId) (rows : List StateRow) : Prop :=
  Asset.checkShiftReduce nonTerminals (nonTerminals + terminals) ⟨initial, rows⟩ = .ok ()

/-- The slot that a look-up of an action reads. -/
def actionSlot? (t : ShiftReduceTable) (s : StateId) (terminal : SymbolId) : Option Nat :=
  (terminalColumn t.nonTerminals terminal).bind fun col => t.actions.slot? s.toNat col

/-- The slot that a look-up of a goto reads. -/
def gotoSlot? (t : ShiftReduceTable) (s : StateId) (nonTerminal : SymbolId) : Option Nat :=
  t.gotos.slot? s.toNat nonTerminal.index

/-- A table answers as the rows say. -/
structure Answers (nonTerminals terminals : Nat) (rows : List StateRow) (t : ShiftReduceTable) :
    Prop where
  /-- A cell holds the last entry for it. -/
  action? : ∀ s terminal a, t.action? s terminal = some a ↔
    ∃ row, rows[s.toNat]? = some row ∧ IsLastFor Prod.fst row.actions (terminal, a)
  goto? : ∀ s nonTerminal target, t.goto? s nonTerminal = some target ↔
    ∃ row, rows[s.toNat]? = some row ∧ IsLastFor Prod.fst row.gotos (nonTerminal, target)
  actionOutside : ∀ s terminal, rows.length ≤ s.toNat ∨ terminal.index < nonTerminals ∨
    nonTerminals + terminals ≤ terminal.index → t.action? s terminal = none
  gotoOutside : ∀ s nonTerminal, rows.length ≤ s.toNat ∨ nonTerminals ≤ nonTerminal.index →
    t.goto? s nonTerminal = none
  /-- Every look-up reads one slot, and no two cells share it. -/
  actionReads : ∀ s terminal,
    t.action? s terminal = (t.actionSlot? s terminal).bind fun i => t.actions.cells[i]?.join
  gotoReads : ∀ s nonTerminal,
    t.goto? s nonTerminal = (t.gotoSlot? s nonTerminal).bind fun i => t.gotos.cells[i]?.join
  actionSlots : ∀ s terminal i, t.actionSlot? s terminal = some i → i < t.actions.cells.size ∧
    ∀ s' terminal', t.actionSlot? s' terminal' = some i → s' = s ∧ terminal' = terminal
  gotoSlots : ∀ s nonTerminal i, t.gotoSlot? s nonTerminal = some i → i < t.gotos.cells.size ∧
    ∀ s' nonTerminal', t.gotoSlot? s' nonTerminal' = some i → s' = s ∧ nonTerminal' = nonTerminal
  /-- What is expected are the terminals with an action, in order. -/
  ascending : ∀ s, (t.expected s).Pairwise fun s s' => s.index < s'.index
  expected : ∀ s terminal, terminal ∈ t.expected s ↔ (t.action? s terminal).isSome = true
  /-- The table is made again of its own rows. -/
  accepted : Accepts nonTerminals terminals t.initial t.toRows
  rebuilt : ofRows nonTerminals terminals t.initial t.toRows = t

variable {nonTerminals terminals : Nat} {initial : StateId} {rows : List StateRow}
  {t : ShiftReduceTable}

theorem accepts_iff : Accepts nonTerminals terminals initial rows ↔ initial.toNat < rows.length ∧
    ∀ row ∈ rows,
      (∀ q ∈ row.actions, nonTerminals ≤ q.1.index ∧ q.1.index < nonTerminals + terminals) ∧
      ∀ q ∈ row.gotos, q.1.index < nonTerminals :=
  Asset.checkShiftReduce_eq_ok

theorem actionSlot?_inj {s s' : StateId} {terminal terminal' : SymbolId} {i : Nat}
    (h : t.actionSlot? s terminal = some i) (h' : t.actionSlot? s' terminal' = some i) :
    s' = s ∧ terminal' = terminal := by
  obtain ⟨col, hcol, hslot⟩ := Option.bind_eq_some_iff.1 h
  obtain ⟨col', hcol', hslot'⟩ := Option.bind_eq_some_iff.1 h'
  obtain ⟨hstate, rfl⟩ := Grid.slot?_inj hslot' hslot
  refine ⟨UInt32.toNat_inj.1 hstate, SymbolId.index_inj.1 ?_⟩
  rw [terminalColumn_eq_some.1 hcol, terminalColumn_eq_some.1 hcol']

theorem gotoSlot?_inj {s s' : StateId} {nonTerminal nonTerminal' : SymbolId} {i : Nat}
    (h : t.gotoSlot? s nonTerminal = some i) (h' : t.gotoSlot? s' nonTerminal' = some i) :
    s' = s ∧ nonTerminal' = nonTerminal := by
  obtain ⟨hstate, hcol⟩ := Grid.slot?_inj h' h
  exact ⟨UInt32.toNat_inj.1 hstate, SymbolId.index_inj.1 hcol⟩

/-- What a state does is the last action in its row for the terminal. -/
theorem action?_eq_some (h : Accepts nonTerminals terminals initial rows) {s : StateId}
    {terminal : SymbolId} {a : Action} :
    (ofRows nonTerminals terminals initial rows).action? s terminal = some a ↔
      ∃ row, rows[s.toNat]? = some row ∧ IsLastFor Prod.fst row.actions (terminal, a) := by
  rw [action?_ofRows, writtenAction]
  constructor
  · intro hact
    split at hact
    · obtain ⟨row, hrow, hlast⟩ := Option.bind_eq_some_iff.1 hact
      exact ⟨row, hrow, Grid.lastFor_eq_some_iff.1 hlast⟩
    · cases hact
  · rintro ⟨row, hrow, hlast⟩
    have hin := ((accepts_iff.1 h).2 row (List.mem_of_getElem? hrow)).1 _ hlast.mem
    rw [if_pos hin, hrow]
    exact Grid.lastFor_eq_some_iff.2 hlast

/-- Where a state goes is the last goto in its row for the non-terminal. -/
theorem goto?_eq_some (h : Accepts nonTerminals terminals initial rows) {s target : StateId}
    {nonTerminal : SymbolId} :
    (ofRows nonTerminals terminals initial rows).goto? s nonTerminal = some target ↔
      ∃ row, rows[s.toNat]? = some row ∧ IsLastFor Prod.fst row.gotos (nonTerminal, target) := by
  rw [goto?_ofRows, writtenGoto]
  constructor
  · intro hgoto
    split at hgoto
    · obtain ⟨row, hrow, hlast⟩ := Option.bind_eq_some_iff.1 hgoto
      exact ⟨row, hrow, Grid.lastFor_eq_some_iff.1 hlast⟩
    · cases hgoto
  · rintro ⟨row, hrow, hlast⟩
    have hin := ((accepts_iff.1 h).2 row (List.mem_of_getElem? hrow)).2 _ hlast.mem
    rw [if_pos hin, hrow]
    exact Grid.lastFor_eq_some_iff.2 hlast

theorem accepts_toRows (h : Accepts nonTerminals terminals initial rows) :
    Accepts nonTerminals terminals initial (ofRows nonTerminals terminals initial rows).toRows := by
  refine accepts_iff.2 ⟨?_, fun row => columns_of_mem_toRows⟩
  rw [length_toRows_ofRows]
  exact (accepts_iff.1 h).1

theorem answers_ofRows (h : Accepts nonTerminals terminals initial rows) :
    (ofRows nonTerminals terminals initial rows).Answers nonTerminals terminals rows where
  action? _ _ _ := action?_eq_some h
  goto? _ _ _ := goto?_eq_some h
  actionOutside s terminal hout := by
    rw [action?_ofRows, writtenAction]
    split
    · rw [List.getElem?_eq_none (by omega), Option.bind_none]
    · rfl
  gotoOutside s nonTerminal hout := by
    rw [goto?_ofRows, writtenGoto]
    split
    · rw [List.getElem?_eq_none (by omega), Option.bind_none]
    · rfl
  actionReads s terminal := by
    rw [ShiftReduceTable.action?, actionSlot?, Option.bind_assoc]
    simp only [Grid.get?_eq_slot]
  gotoReads s nonTerminal := Grid.get?_eq_slot _ _ _
  actionSlots s terminal i hslot := by
    obtain ⟨col, -, hcell⟩ := Option.bind_eq_some_iff.1 hslot
    exact ⟨Grid.lt_of_slot? hcell, fun _ _ hslot' => actionSlot?_inj hslot hslot'⟩
  gotoSlots s nonTerminal i hslot :=
    ⟨Grid.lt_of_slot? hslot, fun _ _ hslot' => gotoSlot?_inj hslot hslot'⟩
  ascending s :=
    Grid.terminals_ascending fun p hp => (named_ofRows _ _ _ _).1 _ _ _ (Grid.mem_row.1 hp)
  expected s terminal :=
    Grid.mem_terminals fun p hp => (named_ofRows _ _ _ _).1 _ _ _ (Grid.mem_row.1 hp)
  accepted := accepts_toRows h
  rebuilt := ofRows_toRows_ofRows nonTerminals terminals initial rows

end ShiftReduceTable

/-! ### Both tables -/

/-- Tables of any size answer as their accepted entries say. -/
theorem lookups_exact (nonTerminals terminals : Nat) (entries : List Prediction) (initial : StateId)
    (rows : List StateRow) :
    (PredictionTable.Accepts nonTerminals terminals entries →
      (PredictionTable.ofEntries nonTerminals terminals entries).Answers nonTerminals
        terminals entries) ∧
    (ShiftReduceTable.Accepts nonTerminals terminals initial rows →
      (ShiftReduceTable.ofRows nonTerminals terminals initial rows).Answers nonTerminals
        terminals rows) :=
  ⟨PredictionTable.answers_ofEntries, ShiftReduceTable.answers_ofRows⟩

/-- Predictions of which the third takes the cell of the first. -/
def overwrittenEntries : List Prediction :=
  [⟨⟨0⟩, ⟨2⟩, ⟨0⟩⟩, ⟨⟨1⟩, ⟨3⟩, ⟨1⟩⟩, ⟨⟨0⟩, ⟨2⟩, ⟨2⟩⟩]

/-- Rows of which the first takes back an action and a goto. -/
def overwrittenRows : List StateRow :=
  [{ actions := [(⟨2⟩, .shift 1), (⟨3⟩, .reduce ⟨0⟩), (⟨2⟩, .accept)],
     gotos := [(⟨1⟩, 1), (⟨1⟩, 0)] },
   { actions := [(⟨3⟩, .reduce ⟨1⟩)] }]

theorem lookups_exact_overwritten :
    PredictionTable.Accepts 2 2 overwrittenEntries ∧
      ShiftReduceTable.Accepts 2 2 1 overwrittenRows ∧
      (PredictionTable.ofEntries 2 2 overwrittenEntries).Answers 2 2 overwrittenEntries ∧
      (ShiftReduceTable.ofRows 2 2 1 overwrittenRows).Answers 2 2 overwrittenRows := by
  have hentries : PredictionTable.Accepts 2 2 overwrittenEntries := rfl
  have hrows : ShiftReduceTable.Accepts 2 2 1 overwrittenRows := rfl
  have h := lookups_exact 2 2 overwrittenEntries 1 overwrittenRows
  exact ⟨hentries, hrows, h.1 hentries, h.2 hrows⟩

end TableParser
