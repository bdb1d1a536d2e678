import Mathlib.Data.List.Basic
import TableParser.Grammar.Asset
import TableParser.Proofs.Grammar.Cell
/-!
Tables and their own entries.

The entries of a grid are its filled cells, so a grid made of them is the grid again. The same holds
of the two parse tables, whose entries name cells by symbols, and of block ends, which are kept by
symbol. So tables that are written down and read back are the same tables. Of a list of entries, a
table holds those that are the last ones for their cells (`IsLastFor`).

Main statements: `Asset.tables_ofTables`, `PredictionTable.mem_entries_ofEntries`,
`ShiftReduceTable.exists_mem_actions` and `Asset.mem_blockEndList`.
-/

namespace TableParser

/-- An item of a list is the last one with its key. -/
def IsLastFor {α κ : Type} (key : α → κ) (l : List α) (x : α) : Prop :=
  ∃ before after, l = before ++ x :: after ∧ ∀ y ∈ after, key y ≠ key x

theorem IsLastFor.mem {α κ : Type} {key : α → κ} {l : List α} {x : α} (h : IsLastFor key l x) :
    x ∈ l := by
  obtain ⟨before, after, rfl, -⟩ := h
  exact List.mem_append_right _ List.mem_cons_self

theorem isLastFor_cons {α κ : Type} {key : α → κ} {l : List α} {x y : α} :
    IsLastFor key (y :: l) x ↔ IsLastFor key l x ∨ (x = y ∧ ∀ z ∈ l, key z ≠ key y) := by
  constructor
  · rintro ⟨before, after, hl, hafter⟩
    cases before with
    | nil =>
      rw [List.nil_append, List.cons.injEq] at hl
      obtain ⟨rfl, rfl⟩ := hl
      exact .inr ⟨rfl, hafter⟩
    | cons z before =>
      rw [List.cons_append, List.cons.injEq] at hl
      exact .inl ⟨before, after, hl.2, hafter⟩
  · rintro (⟨before, after, rfl, hafter⟩ | ⟨rfl, hl⟩)
    · exact ⟨y :: before, after, rfl, hafter⟩
    · exact ⟨[], l, rfl, hl⟩

namespace Grid

variable {α κ : Type}

/-! ### The last value of a key -/

theorem lastFor_eq_none [DecidableEq κ] {k : κ} {l : List (κ × α)} :
    lastFor k l = none ↔ ∀ p ∈ l, p.1 ≠ k := by
  rw [lastFor, List.findRev?_eq_find?_reverse, Option.map_eq_none_iff, List.find?_eq_none]
  simp

/-- The last value of a key is that of the last item with the key. -/
theorem lastFor_eq_some [DecidableEq κ] {β : Type} {key : β → κ} {f : β → α} {k : κ} {v : α}
    {l : List β} : lastFor k (l.map fun x => (key x, f x)) = some v ↔
      ∃ x, IsLastFor key l x ∧ key x = k ∧ f x = v := by
  induction l with
  | nil => simp [lastFor, IsLastFor]
  | cons y l ih =>
    rw [List.map_cons, lastFor_cons]
    cases hlast : lastFor k (l.map fun x => (key x, f x)) with
    | some w =>
      rw [hlast] at ih
      rw [Option.some_or, ih]
      constructor
      · rintro ⟨x, hx, hk, hv⟩
        exact ⟨x, isLastFor_cons.2 (.inl hx), hk, hv⟩
      · rintro ⟨x, hx, rfl, hv⟩
        rcases isLastFor_cons.1 hx with hx | ⟨rfl, hnone⟩
        · exact ⟨x, hx, rfl, hv⟩
        · -- an item with this key comes later
          have hmem := mem_of_lastFor hlast
          obtain ⟨z, hz, heq⟩ := List.mem_map.1 hmem
          exact absurd (congrArg Prod.fst heq) (hnone z hz)
    | none =>
      have hnone := lastFor_eq_none.1 hlast
      simp only [List.forall_mem_map] at hnone
      rw [Option.none_or]
      constructor
      · intro h
        split at h
        · next hk =>
          dsimp only at hk
          subst hk
          cases h
          exact ⟨y, isLastFor_cons.2 (.inr ⟨rfl, hnone⟩), rfl, rfl⟩
        · cases h
      · rintro ⟨x, hx, rfl, rfl⟩
        rcases isLastFor_cons.1 hx with hx | ⟨rfl, -⟩
        · exact absurd rfl (hnone x hx.mem)
        · rw [if_pos rfl]

/-- The last value of a key is that of the last pair with the key. -/
theorem lastFor_eq_some_iff [DecidableEq κ] {k : κ} {v : α} {l : List (κ × α)} :
    lastFor k l = some v ↔ IsLastFor Prod.fst l (k, v) := by
  rw [← List.map_id' l, lastFor_eq_some, List.map_id']
  constructor
  · rintro ⟨⟨_, _⟩, hlast, rfl, rfl⟩
    exact hlast
  · exact fun hlast => ⟨_, hlast, rfl, rfl⟩

/-- Where a list has at most one value for a key, that value is the last one. -/
theorem lastFor_eq [DecidableEq κ] {k : κ} {l : List (κ × α)} {o : Option α}
    (h : ∀ v, (k, v) ∈ l ↔ o = some v) : lastFor k l = o := by
  cases hl : lastFor k l with
  | some v => exact ((h v).1 (mem_of_lastFor hl)).symm
  | none =>
    cases ho : o with
    | none => rfl
    | some v => exact absurd rfl (lastFor_eq_none.1 hl _ ((h v).2 ho))

/-! ### The entries of a grid -/

variable {g g' : Grid α} {r c : Nat} {v : α}

theorem lt_of_get? (h : g.get? r c = some v) : r < g.rows ∧ c < g.width :=
  Decidable.byContradiction fun hn => by rw [get?_eq_none hn] at h; cases h

theorem mem_row : (c, v) ∈ g.row r ↔ g.get? r c = some v := by
  rw [row, List.mem_filterMap]
  constructor
  · rintro ⟨c', -, hcell⟩
    obtain ⟨v', hget, heq⟩ := Option.map_eq_some_iff.1 hcell
    cases heq
    exact hget
  · intro h
    exact ⟨c, List.mem_range.2 (lt_of_get? h).2, by rw [h]; rfl⟩

/-- The entries of a grid are its filled cells. -/
theorem mem_entries : (r, c, v) ∈ g.entries ↔ g.get? r c = some v := by
  rw [entries, List.mem_flatMap]
  constructor
  · rintro ⟨r', -, hrow⟩
    obtain ⟨⟨c', v'⟩, hcell, heq⟩ := List.mem_map.1 hrow
    cases heq
    exact mem_row.1 hcell
  · intro h
    exact ⟨r, List.mem_range.2 (lt_of_get? h).1, List.mem_map.2 ⟨(c, v), mem_row.2 h, rfl⟩⟩

/-- A grid is given by its size and its cells. -/
theorem ext_get? (hrows : g.rows = g'.rows) (hwidth : g.width = g'.width)
    (hcells : ∀ r c, g.get? r c = g'.get? r c) : g = g' := by
  obtain ⟨rows, width, cells, hsize⟩ := g
  obtain ⟨rows', width', cells', hsize'⟩ := g'
  dsimp only at hrows hwidth
  subst hrows hwidth
  suffices h : cells = cells' by subst h; rfl
  refine Array.ext (hsize.trans hsize'.symm) fun i hi hi' => ?_
  have hlt : i < rows * width := hsize ▸ hi
  have hpos : 0 < width := Nat.pos_of_ne_zero fun h0 => by rw [h0, Nat.mul_zero] at hlt; omega
  have hplace : i / width < rows ∧ i % width < width :=
    ⟨Nat.div_lt_of_lt_mul (Nat.mul_comm rows width ▸ hlt), Nat.mod_lt i hpos⟩
  have hcell := hcells (i / width) (i % width)
  rw [get?, get?, if_pos hplace, if_pos hplace, Nat.div_add_mod' i width,
    Array.getElem?_eq_getElem hi, Array.getElem?_eq_getElem hi'] at hcell
  exact hcell

/-- A grid is made of its own entries. -/
theorem ofEntries_entries (g : Grid α) : ofEntries g.rows g.width g.entries = g := by
  refine ext_get? (rows_ofEntries ..) (width_ofEntries ..) fun r c => ?_
  rw [get?_ofEntries]
  split
  · refine lastFor_eq fun v => ?_
    rw [← mem_entries, List.mem_map]
    constructor
    · rintro ⟨⟨r', c', v'⟩, hmem, heq⟩
      cases heq
      exact hmem
    · exact fun hmem => ⟨(r, c, v), hmem, rfl⟩
  · next h => exact (get?_eq_none h).symm

end Grid

/-! ### Prediction -/

theorem SymbolId.index_ofNat {n : Nat} (h : n < 65536) : (SymbolId.ofNat n).index = n :=
  UInt16.toNat_ofNat_of_lt' h

theorem index_terminalAt {nonTerminals col : Nat} (h : nonTerminals + col < 65536) :
    (terminalAt nonTerminals col).index = nonTerminals + col :=
  SymbolId.index_ofNat h

theorem terminalColumn_terminalAt {nonTerminals col : Nat} (h : nonTerminals + col < 65536) :
    terminalColumn nonTerminals (terminalAt nonTerminals col) = some col :=
  terminalColumn_eq_some.2 (index_terminalAt h)

namespace PredictionTable

variable {t : PredictionTable} {nonTerminals terminals : Nat} {entries : List Prediction}

/-- Every filled cell has symbols for its row and its column. -/
def Named (t : PredictionTable) : Prop :=
  ∀ r c v, t.grid.get? r c = some v → r < 65536 ∧ t.nonTerminals + c < 65536

/-- A table of any size has symbols for what was written in it. -/
theorem named_ofEntries (nonTerminals terminals : Nat) (entries : List Prediction) :
    (ofEntries nonTerminals terminals entries).Named := by
  intro r c v hget
  rw [ofEntries, Grid.get?_ofEntries] at hget
  split at hget
  · obtain ⟨e, he, hplaced⟩ := List.mem_map.1 (Grid.mem_of_lastFor hget)
    obtain ⟨p, -, hcell⟩ := List.mem_filterMap.1 he
    obtain ⟨col, hcol, rfl⟩ := Option.map_eq_some_iff.1 hcell
    cases hplaced
    rw [nonTerminals_ofEntries, ← terminalColumn_eq_some.1 hcol]
    exact ⟨p.row.val.toNat_lt, p.terminal.val.toNat_lt⟩
  · cases hget

/-- The entries of a table are what it predicts. -/
theorem mem_entries (h : t.Named) {p : Prediction} :
    p ∈ t.entries ↔ t.get? p.row p.terminal = some p.rule := by
  obtain ⟨row, terminal, rule⟩ := p
  rw [PredictionTable.entries, List.mem_map, get?, Option.bind_eq_some_iff]
  constructor
  · rintro ⟨⟨r, c, v⟩, hmem, heq⟩
    have hget := Grid.mem_entries.1 hmem
    obtain ⟨hr, hc⟩ := h r c v hget
    cases heq
    exact ⟨c, terminalColumn_terminalAt hc, by rwa [SymbolId.index_ofNat hr]⟩
  · rintro ⟨c, hc, hget⟩
    refine ⟨(row.index, c, rule), Grid.mem_entries.2 hget, ?_⟩
    dsimp only
    rw [terminalAt, ← terminalColumn_eq_some.1 hc, SymbolId.ofNat_index, SymbolId.ofNat_index]

/-- A table is made of its own entries. -/
theorem ofEntries_entries (h : t.Named) : ofEntries t.nonTerminals t.grid.width t.entries = t := by
  have hcells : (t.entries.filterMap fun e => (terminalColumn t.nonTerminals e.terminal).map
      fun col => (e.row.index, col, e.rule)) = t.grid.entries := by
    rw [PredictionTable.entries, List.filterMap_map]
    conv => rhs; rw [← List.filterMap_some (l := t.grid.entries)]
    refine List.filterMap_congr ?_
    rintro ⟨r, c, v⟩ hmem
    obtain ⟨hr, hc⟩ := h r c v (Grid.mem_entries.1 hmem)
    simp only [Function.comp_apply, terminalColumn_terminalAt hc, SymbolId.index_ofNat hr,
      Option.map_some]
  rw [ofEntries, hcells]
  exact congrArg PredictionTable.mk (Grid.ofEntries_entries t.grid)

/-- A table of written entries is made of the entries that it holds. -/
theorem ofEntries_entries_ofEntries (nonTerminals terminals : Nat) (entries : List Prediction) :
    ofEntries nonTerminals terminals (ofEntries nonTerminals terminals entries).entries =
      ofEntries nonTerminals terminals entries := by
  have hwidth : (ofEntries nonTerminals terminals entries).grid.width = terminals :=
    Grid.width_ofEntries ..
  have htable := ofEntries_entries (named_ofEntries nonTerminals terminals entries)
  rwa [hwidth, nonTerminals_ofEntries] at htable

/-- A table holds the last entry for each cell, where all entries name cells. -/
theorem mem_entries_ofEntries
    (hin : ∀ p ∈ entries, p.row.index < nonTerminals ∧ nonTerminals ≤ p.terminal.index ∧
      p.terminal.index < nonTerminals + terminals) {p : Prediction} :
    p ∈ (ofEntries nonTerminals terminals entries).entries ↔
      IsLastFor (fun e => (e.row, e.terminal)) entries p := by
  rw [mem_entries (named_ofEntries nonTerminals terminals entries), get?_ofEntries, written]
  have hcell : Grid.lastFor (p.row, p.terminal) (entries.map cell) = some p.rule ↔
      IsLastFor (fun e => (e.row, e.terminal)) entries p := by
    rw [show entries.map cell = entries.map fun e => ((e.row, e.terminal), e.rule) from rfl,
      Grid.lastFor_eq_some]
    constructor
    · rintro ⟨e, he, hkey, hrule⟩
      obtain ⟨hrow, hterminal⟩ := Prod.mk.injEq .. ▸ hkey
      have heq : e = p := by cases e; cases p; cases hrow; cases hterminal; cases hrule; rfl
      exact heq ▸ he
    · exact fun he => ⟨p, he, rfl, rfl⟩
  split
  · exact hcell
  · next hout =>
    constructor
    · intro hnone; cases hnone
    · intro he; exact absurd (hin p he.mem) hout

end PredictionTable

/-! ### Shift and reduce -/

namespace ShiftReduceTable

variable {t : ShiftReduceTable} {nonTerminals terminals : Nat} {initial : StateId}
  {rows : List StateRow}

/-- Every filled cell has a symbol for its column. -/
def Named (t : ShiftReduceTable) : Prop :=
  (∀ s c a, t.actions.get? s c = some a → t.nonTerminals + c < 65536) ∧
    ∀ s c target, t.gotos.get? s c = some target → c < 65536

/-- A table of any size has symbols for what was written in it. -/
theorem named_ofRows (nonTerminals terminals : Nat) (initial : StateId) (rows : List StateRow) :
    (ofRows nonTerminals terminals initial rows).Named := by
  constructor
  · intro s c a hget
    obtain ⟨⟨row, s'⟩, -, hentry⟩ :=
      List.mem_flatMap.1 (Grid.mem_of_mem_entries (Grid.mem_entries.2 hget))
    obtain ⟨q, -, hcell⟩ := List.mem_filterMap.1 hentry
    obtain ⟨col, hcol, heq⟩ := Option.map_eq_some_iff.1 hcell
    cases heq
    rw [nonTerminals_ofRows, ← terminalColumn_eq_some.1 hcol]
    exact q.1.val.toNat_lt
  · intro s c target hget
    obtain ⟨⟨row, s'⟩, -, hentry⟩ :=
      List.mem_flatMap.1 (Grid.mem_of_mem_entries (Grid.mem_entries.2 hget))
    obtain ⟨q, -, heq⟩ := List.mem_map.1 hentry
    cases heq
    exact q.1.val.toNat_lt

theorem length_toRows : t.toRows.length = t.states := by
  rw [toRows, List.length_map, List.length_range]

/-- There are as many rows as were written. -/
theorem length_toRows_ofRows :
    (ofRows nonTerminals terminals initial rows).toRows.length = rows.length := by
  rw [length_toRows, states, ofRows, Grid.rows_ofEntries]

/-- The rows of a table name its columns. -/
theorem columns_of_mem_toRows {row : StateRow}
    (hrow : row ∈ (ofRows nonTerminals terminals initial rows).toRows) :
    (∀ q ∈ row.actions, nonTerminals ≤ q.1.index ∧ q.1.index < nonTerminals + terminals) ∧
      ∀ q ∈ row.gotos, q.1.index < nonTerminals := by
  have hnamed := named_ofRows nonTerminals terminals initial rows
  have hwidth : (ofRows nonTerminals terminals initial rows).actions.width = terminals :=
    Grid.width_ofEntries ..
  obtain ⟨s, -, rfl⟩ := List.mem_map.1 hrow
  refine ⟨fun q hq => ?_, fun q hq => ?_⟩
  · obtain ⟨⟨col, action⟩, hcell, rfl⟩ := List.mem_map.1 hq
    have hget := Grid.mem_row.1 hcell
    have hcol := (Grid.lt_of_get? hget).2
    rw [index_terminalAt (hnamed.1 s col action hget), nonTerminals_ofRows]
    omega
  · obtain ⟨⟨col, target⟩, hcell, rfl⟩ := List.mem_map.1 hq
    have hget := Grid.mem_row.1 hcell
    have hcol := (Grid.lt_of_get? hget).2
    rw [SymbolId.index_ofNat (hnamed.2 s col target hget),
      ← nonTerminals_ofRows nonTerminals terminals initial rows]
    exact hcol

/-- A table is made of its own rows. -/
theorem ofRows_toRows (hrows : t.gotos.rows = t.actions.rows) (h : t.Named) :
    ofRows t.nonTerminals t.actions.width t.initial t.toRows = t := by
  have hzip : t.toRows.zipIdx = (List.range t.states).map fun s => ((
      { actions := (t.actions.row s).map fun q => (terminalAt t.nonTerminals q.1, q.2)
        gotos := (t.gotos.row s).map fun q => (SymbolId.ofNat q.1, q.2) } : StateRow), s) := by
    refine List.ext_getElem (by simp [toRows]) fun i hi hi' => ?_
    simp [toRows]
  have hactions : actionEntries t.nonTerminals t.toRows = t.actions.entries := by
    rw [actionEntries, hzip, List.flatMap_map, Grid.entries]
    refine List.flatMap_congr fun s _ => ?_
    dsimp only
    rw [List.filterMap_map, ← List.filterMap_eq_map]
    refine List.filterMap_congr ?_
    rintro ⟨c, a⟩ hmem
    have hc := h.1 s c a (Grid.mem_row.1 hmem)
    simp only [Function.comp_apply, terminalColumn_terminalAt hc, Option.map_some]
  have hgotos : gotoEntries t.toRows = t.gotos.entries := by
    rw [gotoEntries, hzip, List.flatMap_map, Grid.entries, hrows]
    refine List.flatMap_congr fun s _ => ?_
    dsimp only
    rw [List.map_map]
    refine List.map_congr_left ?_
    rintro ⟨c, target⟩ hmem
    have hc := h.2 s c target (Grid.mem_row.1 hmem)
    simp only [Function.comp_apply, SymbolId.index_ofNat hc]
  rw [ofRows, length_toRows, hactions, hgotos]
  have h1 : Grid.ofEntries t.states t.actions.width t.actions.entries = t.actions :=
    Grid.ofEntries_entries t.actions
  have h2 : Grid.ofEntries t.states t.nonTerminals t.gotos.entries = t.gotos := by
    rw [states, ← hrows]
    exact Grid.ofEntries_entries t.gotos
  rw [h1, h2]

/-- A table of written rows is made of the rows that it holds. -/
theorem ofRows_toRows_ofRows (nonTerminals terminals : Nat) (initial : StateId)
    (rows : List StateRow) :
    ofRows nonTerminals terminals initial (ofRows nonTerminals terminals initial rows).toRows =
      ofRows nonTerminals terminals initial rows := by
  have hwidth : (ofRows nonTerminals terminals initial rows).actions.width = terminals :=
    Grid.width_ofEntries ..
  have hrows : (ofRows nonTerminals terminals initial rows).gotos.rows =
      (ofRows nonTerminals terminals initial rows).actions.rows := by
    rw [ofRows, Grid.rows_ofEntries, Grid.rows_ofEntries]
  have htable := ofRows_toRows hrows (named_ofRows nonTerminals terminals initial rows)
  rwa [hwidth, nonTerminals_ofRows] at htable

/-- The actions of a table are the last ones of each row for their terminals. -/
theorem exists_mem_actions
    (hin : ∀ row ∈ rows, ∀ q ∈ row.actions, nonTerminals ≤ q.1.index ∧
      q.1.index < nonTerminals + terminals) {a : Action} :
    (∃ s c, (s, c, a) ∈ (ofRows nonTerminals terminals initial rows).actions.entries) ↔
      ∃ row ∈ rows, ∃ terminal, IsLastFor Prod.fst row.actions (terminal, a) := by
  constructor
  · rintro ⟨s, c, hmem⟩
    have hget := Grid.mem_entries.1 hmem
    have hc := (named_ofRows nonTerminals terminals initial rows).1 s c a hget
    rw [nonTerminals_ofRows] at hc
    rw [get?_actions _ _ _ _ _ (index_terminalAt hc)] at hget
    split at hget
    · obtain ⟨row, hrow, hlast⟩ := Option.bind_eq_some_iff.1 hget
      exact ⟨row, List.mem_of_getElem? hrow, _, Grid.lastFor_eq_some_iff.1 hlast⟩
    · cases hget
  · rintro ⟨row, hrow, terminal, hq⟩
    obtain ⟨s, hs⟩ := List.mem_iff_getElem?.1 hrow
    obtain ⟨hle, hlt⟩ := hin row hrow _ hq.mem
    obtain ⟨c, hc⟩ := Nat.exists_eq_add_of_le hle
    refine ⟨s, c, Grid.mem_entries.2 ?_⟩
    rw [get?_actions _ _ _ _ _ hc, if_pos (by omega), hs]
    exact Grid.lastFor_eq_some_iff.2 hq

/-- The gotos of a table are the last ones of each row for their non-terminals. -/
theorem exists_mem_gotos
    (hin : ∀ row ∈ rows, ∀ q ∈ row.gotos, q.1.index < nonTerminals) {target : StateId} :
    (∃ s c, (s, c, target) ∈ (ofRows nonTerminals terminals initial rows).gotos.entries) ↔
      ∃ row ∈ rows, ∃ nonTerminal, IsLastFor Prod.fst row.gotos (nonTerminal, target) := by
  constructor
  · rintro ⟨s, c, hmem⟩
    have hget := Grid.mem_entries.1 hmem
    have hc := (named_ofRows nonTerminals terminals initial rows).2 s c target hget
    rw [← SymbolId.index_ofNat hc, get?_gotos] at hget
    split at hget
    · obtain ⟨row, hrow, hlast⟩ := Option.bind_eq_some_iff.1 hget
      exact ⟨row, List.mem_of_getElem? hrow, _, Grid.lastFor_eq_some_iff.1 hlast⟩
    · cases hget
  · rintro ⟨row, hrow, nonTerminal, hq⟩
    obtain ⟨s, hs⟩ := List.mem_iff_getElem?.1 hrow
    refine ⟨s, nonTerminal.index, Grid.mem_entries.2 ?_⟩
    rw [get?_gotos, if_pos (hin row hrow _ hq.mem), hs]
    exact Grid.lastFor_eq_some_iff.2 hq

end ShiftReduceTable

/-! ### Block ends -/

namespace Asset

theorem size_blockEndTable (size : Nat) (ends : List BlockEnd) :
    (blockEndTable size ends).size = size := by
  have hfold : ∀ table : Array (Option BlockEnd),
      (ends.foldl (fun table b => table.setIfInBounds b.symbol.index (some b)) table).size =
        table.size := by
    induction ends with
    | nil => intro table; rfl
    | cons b ends ih => intro table; rw [List.foldl_cons, ih, Array.size_setIfInBounds]
  rw [blockEndTable, hfold, Array.size_replicate]

/-- The table of block ends holds the last one of each symbol. -/
theorem getElem?_blockEndTable (size : Nat) (ends : List BlockEnd) {i : Nat} (hi : i < size) :
    (blockEndTable size ends)[i]? =
      some (Grid.lastFor i (ends.map fun b => (b.symbol.index, b))) := by
  have hfold : ∀ (ends : List BlockEnd) (table : Array (Option BlockEnd)), table.size = size →
      (ends.foldl (fun table b => table.setIfInBounds b.symbol.index (some b)) table)[i]? =
        some ((Grid.lastFor i (ends.map fun b => (b.symbol.index, b))).or table[i]?.join) := by
    intro ends
    induction ends with
    | nil =>
      intro table hsize
      rw [List.foldl_nil, Array.getElem?_eq_getElem (by omega), Option.join_some]
      rfl
    | cons b ends ih =>
      intro table hsize
      rw [List.foldl_cons, ih _ (by rw [Array.size_setIfInBounds, hsize]), List.map_cons,
        Grid.lastFor_cons, Option.or_assoc]
      by_cases hb : b.symbol.index = i
      · simp [hb, hsize, hi]
      · simp [hb]
  rw [blockEndTable, hfold ends _ Array.size_replicate, Array.getElem?_replicate, if_pos hi,
    Option.join_some, Option.or_none]

variable {t : Tables} {size : Nat} {ends : List BlockEnd}

theorem mem_blockEndList_iff {b : BlockEnd} : b ∈ t.blockEndList ↔
    ∃ i : Nat, t.blockEnds[i]? = some (some b) := by
  rw [Tables.blockEndList, List.mem_filterMap]
  constructor
  · rintro ⟨o, ho, rfl⟩
    obtain ⟨i, hi⟩ := List.mem_iff_getElem?.1 ho
    exact ⟨i, by rwa [Array.getElem?_toList] at hi⟩
  · rintro ⟨i, hi⟩
    exact ⟨some b, List.mem_of_getElem? (by rw [Array.getElem?_toList]; exact hi), rfl⟩

theorem lastFor_blockEnds {i : Nat} {b : BlockEnd} :
    Grid.lastFor i (ends.map fun b => (b.symbol.index, b)) = some b ↔
      IsLastFor BlockEnd.symbol ends b ∧ b.symbol.index = i := by
  rw [Grid.lastFor_eq_some]
  constructor
  · rintro ⟨x, ⟨before, after, hends, hafter⟩, hi, rfl⟩
    exact ⟨⟨before, after, hends, fun y hy he => hafter y hy (congrArg _ he)⟩, hi⟩
  · rintro ⟨⟨before, after, hends, hafter⟩, hi⟩
    exact ⟨b, ⟨before, after, hends, fun y hy he => hafter y hy (SymbolId.index_inj.1 he)⟩, hi, rfl⟩

/-- Of the written block ends the tables keep the last one of each symbol. -/
theorem mem_blockEndList (ht : t.blockEnds = blockEndTable size ends)
    (hin : ∀ b ∈ ends, b.symbol.index < size) {b : BlockEnd} :
    b ∈ t.blockEndList ↔ IsLastFor BlockEnd.symbol ends b := by
  rw [mem_blockEndList_iff, ht]
  constructor
  · rintro ⟨i, hi⟩
    have hlt : i < size := by
      obtain ⟨h, -⟩ := Array.getElem?_eq_some_iff.1 hi
      rwa [size_blockEndTable] at h
    rw [getElem?_blockEndTable size ends hlt, Option.some.injEq] at hi
    exact (lastFor_blockEnds.1 hi).1
  · intro h
    refine ⟨b.symbol.index, ?_⟩
    rw [getElem?_blockEndTable size ends (hin b h.mem), lastFor_blockEnds.2 ⟨h, rfl⟩]

/-- A table of block ends is made of the block ends that it holds. -/
theorem blockEndTable_blockEndList (ht : t.blockEnds = blockEndTable size ends)
    (hin : ∀ b ∈ ends, b.symbol.index < size) :
    blockEndTable size t.blockEndList = t.blockEnds := by
  rw [ht]
  refine Array.ext (by rw [size_blockEndTable, size_blockEndTable]) fun i hi hi' => ?_
  have hlt : i < size := by rwa [size_blockEndTable] at hi
  rw [← Option.some_inj, ← Array.getElem?_eq_getElem hi, ← Array.getElem?_eq_getElem hi',
    getElem?_blockEndTable _ _ hlt, getElem?_blockEndTable _ _ hlt, Option.some_inj]
  refine Grid.lastFor_eq fun b => ?_
  rw [List.mem_map, lastFor_blockEnds]
  constructor
  · rintro ⟨b', hb', heq⟩
    cases heq
    exact ⟨(mem_blockEndList ht hin).1 hb', rfl⟩
  · rintro ⟨hb, rfl⟩
    exact ⟨b, (mem_blockEndList ht hin).2 hb, rfl⟩

/-! ### All tables -/

/-- Tables are those of their own written form. -/
theorem tables_ofTables {a : Asset} (hin : ∀ b ∈ a.blockEnds, b.symbol.index < a.symbols.length) :
    (ofTables a.tables).tables = a.tables := by
  have hblockEnds : (ofTables a.tables).tables.blockEnds = a.tables.blockEnds :=
    blockEndTable_blockEndList rfl hin
  have hprediction : (ofTables a.tables).tables.prediction = a.tables.prediction := by
    cases hp : a.prediction with
    | none => simp [tables, ofTables, hp]
    | some entries =>
      simp only [tables, ofTables, hp, Option.map_some]
      exact congrArg some (PredictionTable.ofEntries_entries_ofEntries a.nonTerminals
        a.terminals entries)
  have hshiftReduce : (ofTables a.tables).tables.shiftReduce = a.tables.shiftReduce := by
    cases hs : a.shiftReduce with
    | none => simp [tables, ofTables, hs]
    | some sr =>
      simp only [tables, ofTables, hs, Option.map_some]
      exact congrArg some (ShiftReduceTable.ofRows_toRows_ofRows a.nonTerminals a.terminals
        sr.initial sr.states)
  -- the other fields are written down as they are
  have hsame : ∀ b p s, b = a.tables.blockEnds → p = a.tables.prediction →
      s = a.tables.shiftReduce →
      { a.tables with blockEnds := b, prediction := p, shiftReduce := s } = a.tables := by
    rintro _ _ _ rfl rfl rfl
    rfl
  exact hsame _ _ _ hblockEnds hprediction hshiftReduce

end Asset

end TableParser
