import TableParser.Grammar.ParseTable
/-!
What the cells of a parse table hold.

A grid made of entries holds, at every place inside it, the last entry for that place. For the two
parse tables this says which rule is predicted, which action is taken and where a state goes, in
terms of the written entries. So a fact about a written table is settled by looking through short
lists, and the array of cells is never opened again.

Main statements: `Grid.get?_ofEntries`, `PredictionTable.get?_ofEntries`,
`ShiftReduceTable.action?_ofRows` and `ShiftReduceTable.goto?_ofRows`.
-/

namespace TableParser

/-! ### Ids -/

theorem SymbolId.index_inj {a b : SymbolId} : a.index = b.index ↔ a = b := by
  constructor
  · intro h
    cases a
    cases b
    exact congrArg SymbolId.mk (UInt16.toNat_inj.1 h)
  · exact congrArg SymbolId.index

theorem SymbolId.ofNat_index (s : SymbolId) : SymbolId.ofNat s.index = s :=
  congrArg SymbolId.mk (UInt16.ofNat_toNat)

theorem terminalColumn_eq_some {nonTerminals col : Nat} {s : SymbolId} :
    terminalColumn nonTerminals s = some col ↔ s.index = nonTerminals + col := by
  rw [terminalColumn]
  split <;> simp <;> omega

namespace Grid

variable {α : Type}

/-! ### Places -/

/-- Different places of a grid have different cells. -/
theorem place_inj {width row col row' col' : Nat} (hc : col < width) (hc' : col' < width)
    (h : row * width + col = row' * width + col') : row = row' ∧ col = col' := by
  have hw : 0 < width := by omega
  have hrow : (row * width + col) / width = row := by
    rw [Nat.add_comm, Nat.add_mul_div_right _ _ hw, Nat.div_eq_of_lt hc, Nat.zero_add]
  have hrow' : (row' * width + col') / width = row' := by
    rw [Nat.add_comm, Nat.add_mul_div_right _ _ hw, Nat.div_eq_of_lt hc', Nat.zero_add]
  have hr : row = row' := by rw [← hrow, h, hrow']
  subst hr
  exact ⟨rfl, by omega⟩

theorem place_lt (g : Grid α) {row col : Nat} (hr : row < g.rows) (hc : col < g.width) :
    row * g.width + col < g.cells.size := by
  rw [g.size_cells]
  calc row * g.width + col < row * g.width + g.width := by omega
    _ = (row + 1) * g.width := by rw [Nat.succ_mul]
    _ ≤ g.rows * g.width := Nat.mul_le_mul_right _ hr

@[simp] theorem rows_set (g : Grid α) (row col : Nat) (v : α) :
    (g.set row col v).rows = g.rows := by
  rw [set]; split <;> rfl

@[simp] theorem width_set (g : Grid α) (row col : Nat) (v : α) :
    (g.set row col v).width = g.width := by
  rw [set]; split <;> rfl

theorem get?_blank (rows width row col : Nat) :
    (blank rows width : Grid α).get? row col = none := by
  rw [get?]
  split
  · simp only [blank, Array.getElem?_replicate]
    split <;> rfl
  · rfl

theorem get?_eq_none {g : Grid α} {row col : Nat} (h : ¬ (row < g.rows ∧ col < g.width)) :
    g.get? row col = none := by
  rw [get?, if_neg h]

/-- A value that is put shows at its own place only. -/
theorem get?_set {g : Grid α} {row col row' col' : Nat} {v : α}
    (h : row' < g.rows ∧ col' < g.width) :
    (g.set row col v).get? row' col' =
      if row = row' ∧ col = col' then some v else g.get? row' col' := by
  rw [get?, get?, rows_set, width_set, if_pos h, if_pos h, set]
  by_cases hin : row < g.rows ∧ col < g.width
  · rw [if_pos hin]
    have hlt := g.place_lt hin.1 hin.2
    by_cases hsame : row = row' ∧ col = col'
    · obtain ⟨rfl, rfl⟩ := hsame
      simp [hlt]
    · have hne : row * g.width + col ≠ row' * g.width + col' :=
        fun he => hsame (place_inj hin.2 h.2 he)
      rw [if_neg hsame]
      simp [Array.getElem?_setIfInBounds_ne hne]
  · have hne : ¬ (row = row' ∧ col = col') := by
      rintro ⟨rfl, rfl⟩
      exact hin h
    rw [if_neg hin, if_neg hne]

/-! ### Entries -/

/-- The value of the last pair with a key. -/
def lastFor {κ : Type} [DecidableEq κ] (k : κ) (pairs : List (κ × α)) : Option α :=
  (pairs.findRev? fun p => p.1 = k).map Prod.snd

theorem lastFor_append {κ : Type} [DecidableEq κ] (k : κ) (l l' : List (κ × α)) :
    lastFor k (l ++ l') = (lastFor k l').or (lastFor k l) := by
  simp only [lastFor, List.findRev?_eq_find?_reverse, List.reverse_append, List.find?_append]
  cases l'.reverse.find? _ <;> rfl

theorem lastFor_cons {κ : Type} [DecidableEq κ] (k : κ) (p : κ × α) (l : List (κ × α)) :
    lastFor k (p :: l) = (lastFor k l).or (if p.1 = k then some p.2 else none) := by
  rw [← List.singleton_append, lastFor_append]
  congr 1
  by_cases h : p.1 = k <;> simp [lastFor, List.findRev?, h]

theorem mem_of_lastFor {κ : Type} [DecidableEq κ] {k : κ} {l : List (κ × α)} {v : α}
    (h : lastFor k l = some v) : (k, v) ∈ l := by
  rw [lastFor, List.findRev?_eq_find?_reverse, Option.map_eq_some_iff] at h
  obtain ⟨⟨k', v'⟩, hfind, rfl⟩ := h
  have hk := List.find?_some hfind
  have hmem := List.mem_of_find?_eq_some hfind
  simp only [decide_eq_true_eq] at hk
  exact hk ▸ List.mem_reverse.1 hmem

/-- Keys may be renamed one to one, and pairs without a new key left out. -/
theorem lastFor_filterMap {κ ι : Type} [DecidableEq κ] [DecidableEq ι] {f : κ → Option ι} {k : κ}
    {i : ι} (hk : ∀ k', f k' = some i ↔ k' = k) (l : List (κ × α)) :
    lastFor i (l.filterMap fun p => (f p.1).map fun i' => (i', p.2)) = lastFor k l := by
  induction l with
  | nil => rfl
  | cons p l ih =>
    rw [List.filterMap_cons, lastFor_cons, ← ih]
    by_cases h : p.1 = k
    · rw [(hk p.1).2 h, if_pos h]
      simp [lastFor_cons]
    · have hne : f p.1 ≠ some i := fun he => h ((hk p.1).1 he)
      cases hf : f p.1 with
      | none => simp [h]
      | some i' => simp [lastFor_cons, h, show i' ≠ i from fun he => hne (he ▸ hf)]

/-- An entry as a place with a value. -/
def placed (e : Nat × Nat × α) : (Nat × Nat) × α := ((e.1, e.2.1), e.2.2)

/-- Putting entries one after the other leaves the last one for each place. -/
theorem get?_foldl_set (entries : List (Nat × Nat × α)) :
    ∀ (g : Grid α) {row col : Nat}, row < g.rows ∧ col < g.width →
      (entries.foldl (fun g e => g.set e.1 e.2.1 e.2.2) g).get? row col =
        (lastFor (row, col) (entries.map placed)).or (g.get? row col) := by
  induction entries with
  | nil => intro g row col _; rfl
  | cons e entries ih =>
    intro g row col h
    rw [List.foldl_cons, ih _ (by simpa using h), get?_set h, List.map_cons, lastFor_cons,
      Option.or_assoc]
    by_cases he : e.1 = row ∧ e.2.1 = col <;> simp [placed, he]

theorem size_foldl_set (entries : List (Nat × Nat × α)) :
    ∀ g : Grid α, (entries.foldl (fun g e => g.set e.1 e.2.1 e.2.2) g).rows = g.rows ∧
      (entries.foldl (fun g e => g.set e.1 e.2.1 e.2.2) g).width = g.width := by
  induction entries with
  | nil => intro g; exact ⟨rfl, rfl⟩
  | cons e entries ih => intro g; simpa using ih (g.set e.1 e.2.1 e.2.2)

@[simp] theorem rows_ofEntries (rows width : Nat) (entries : List (Nat × Nat × α)) :
    (ofEntries rows width entries).rows = rows :=
  (size_foldl_set entries (blank rows width)).1

@[simp] theorem width_ofEntries (rows width : Nat) (entries : List (Nat × Nat × α)) :
    (ofEntries rows width entries).width = width :=
  (size_foldl_set entries (blank rows width)).2

/-- A grid of entries holds the last one for each place. -/
theorem get?_ofEntries (rows width row col : Nat) (entries : List (Nat × Nat × α)) :
    (ofEntries rows width entries).get? row col =
      if row < rows ∧ col < width then lastFor (row, col) (entries.map placed) else none := by
  split
  · next h =>
    rw [ofEntries, get?_foldl_set entries (blank rows width) h, get?_blank, Option.or_none]
  · next h => exact get?_eq_none (by simpa using h)

/-- What a grid holds stands among its entries. -/
theorem mem_of_mem_entries {rows width : Nat} {es : List (Nat × Nat × α)}
    {e : Nat × Nat × α} (h : e ∈ (ofEntries rows width es).entries) : e ∈ es := by
  obtain ⟨r, -, hrow⟩ := List.mem_flatMap.1 h
  obtain ⟨⟨c, v⟩, hcell, rfl⟩ := List.mem_map.1 hrow
  obtain ⟨c', -, hget⟩ := List.mem_filterMap.1 hcell
  rw [Option.map_eq_some_iff] at hget
  obtain ⟨v', hget, heq⟩ := hget
  cases heq
  rw [get?_ofEntries] at hget
  split at hget
  · obtain ⟨e', he', hplaced⟩ := List.mem_map.1 (mem_of_lastFor hget)
    cases hplaced
    exact he'
  · cases hget

/-- The last entry for a place in numbered rows is the last one of that row. -/
theorem lastFor_rows {β : Type} (f : β → List (Nat × α)) (row col : Nat) :
    ∀ (rows : List β) (k : Nat),
      lastFor (row, col)
          (((rows.zipIdx k).flatMap fun r => (f r.1).map fun p => (r.2, p.1, p.2)).map placed) =
        if k ≤ row then rows[row - k]?.bind fun r => lastFor col (f r) else none
  | [], k => by simp [lastFor]
  | r :: rows, k => by
    have hrow : lastFor (row, col) (((f r).map fun p => (k, p.1, p.2)).map placed) =
        if k = row then lastFor col (f r) else none := by
      induction f r with
      | nil => simp [lastFor]
      | cons p l ih =>
        rw [List.map_cons, List.map_cons, lastFor_cons, ih, lastFor_cons]
        by_cases hk : k = row <;> by_cases hp : p.1 = col <;> simp [placed, hk, hp]
    rw [List.zipIdx_cons, List.flatMap_cons, List.map_append, lastFor_append, hrow,
      lastFor_rows f row col rows (k + 1)]
    rcases Nat.lt_trichotomy k row with h | h | h
    · obtain ⟨d, rfl⟩ := Nat.exists_eq_add_of_lt h
      rw [if_pos (by omega), if_neg (by omega), if_pos (by omega), Option.or_none,
        show k + d + 1 - (k + 1) = d by omega, show k + d + 1 - k = d + 1 by omega,
        List.getElem?_cons_succ]
    · subst h
      rw [if_neg (by omega), if_pos rfl, if_pos (by omega), Nat.sub_self, Option.none_or,
        List.getElem?_cons_zero, Option.bind_some]
    · rw [if_neg (by omega), if_neg (by omega), if_neg (by omega), Option.none_or]

end Grid

open Grid (lastFor lastFor_filterMap lastFor_rows)

namespace PredictionTable

/-- A written prediction as the cell that it fills. -/
def cell (p : Prediction) : (SymbolId × SymbolId) × RuleId := ((p.row, p.terminal), p.rule)

@[simp] theorem nonTerminals_ofEntries (n m : Nat) (entries : List Prediction) :
    (ofEntries n m entries).nonTerminals = n := by
  rw [nonTerminals, ofEntries, Grid.rows_ofEntries]

/-- The last rule written for a non-terminal before a terminal, if there are such symbols. -/
def written (nonTerminals terminals : Nat) (entries : List Prediction) (row terminal : SymbolId) :
    Option RuleId :=
  if row.index < nonTerminals ∧ nonTerminals ≤ terminal.index ∧
      terminal.index < nonTerminals + terminals then
    lastFor (row, terminal) (entries.map cell)
  else none

/-- The table predicts what was written last. -/
theorem get?_ofEntries (nonTerminals terminals : Nat) (entries : List Prediction) :
    (ofEntries nonTerminals terminals entries).get? = written nonTerminals terminals entries := by
  funext row terminal
  rw [get?, nonTerminals_ofEntries, written]
  by_cases ht : nonTerminals ≤ terminal.index
  · obtain ⟨col, hcol⟩ := Nat.exists_eq_add_of_le ht
    have hplace : ∀ k : SymbolId × SymbolId,
        (terminalColumn nonTerminals k.2).map (fun c => (k.1.index, c)) = some (row.index, col) ↔
          k = (row, terminal) := by
      intro ⟨r, s⟩
      simp only [Option.map_eq_some_iff, terminalColumn_eq_some, Prod.mk.injEq,
        ← SymbolId.index_inj]
      constructor
      · rintro ⟨c, hs, hr, rfl⟩
        exact ⟨hr, by omega⟩
      · rintro ⟨hr, hs⟩
        exact ⟨col, by omega, hr, rfl⟩
    have hentries : (entries.filterMap fun e => (terminalColumn nonTerminals e.terminal).map
        fun c => (e.row.index, c, e.rule)).map Grid.placed =
        (entries.map cell).filterMap fun p =>
          ((terminalColumn nonTerminals p.1.2).map fun c => (p.1.1.index, c)).map
            fun i => (i, p.2) := by
      rw [List.map_filterMap, List.filterMap_map]
      congr 1
      funext e
      cases h : terminalColumn nonTerminals e.terminal <;> simp [cell, Grid.placed, h]
    rw [terminalColumn_eq_some.2 hcol, Option.bind_some, ofEntries, Grid.get?_ofEntries, hentries,
      lastFor_filterMap hplace]
    exact ite_congr (propext (by omega)) (fun _ => rfl) (fun _ => rfl)
  · rw [terminalColumn, if_neg ht, Option.bind_none, if_neg (fun h => ht h.2.1)]

/-- What the table holds was written down. -/
theorem mem_of_mem_entries {nonTerminals terminals : Nat} {entries : List Prediction}
    {p : Prediction} (h : p ∈ (ofEntries nonTerminals terminals entries).entries) :
    p ∈ entries := by
  rw [PredictionTable.entries, nonTerminals_ofEntries] at h
  obtain ⟨cell, hcell, rfl⟩ := List.mem_map.1 h
  obtain ⟨e, he, hplace⟩ := List.mem_filterMap.1 (Grid.mem_of_mem_entries hcell)
  obtain ⟨col, hcol, rfl⟩ := Option.map_eq_some_iff.1 hplace
  simp only [terminalAt, ← terminalColumn_eq_some.1 hcol, SymbolId.ofNat_index]
  exact he

end PredictionTable

namespace ShiftReduceTable

@[simp] theorem nonTerminals_ofRows (n m : Nat) (initial : StateId) (rows : List StateRow) :
    (ofRows n m initial rows).nonTerminals = n := by
  rw [nonTerminals, ofRows, Grid.width_ofEntries]

/-- The last action written in the row of a state for a terminal, if there is such a terminal. -/
def writtenAction (nonTerminals terminals : Nat) (rows : List StateRow) (s : StateId)
    (terminal : SymbolId) : Option Action :=
  if nonTerminals ≤ terminal.index ∧ terminal.index < nonTerminals + terminals then
    rows[s.toNat]?.bind fun row => lastFor terminal row.actions
  else none

/-- The last target written in the row of a state for a non-terminal, if there is such a
non-terminal. -/
def writtenGoto (nonTerminals : Nat) (rows : List StateRow) (s : StateId) (nonTerminal : SymbolId) :
    Option StateId :=
  if nonTerminal.index < nonTerminals then
    rows[s.toNat]?.bind fun row => lastFor nonTerminal row.gotos
  else none

/-- A row of actions holds the last one written in it for each terminal. -/
theorem get?_actions (nonTerminals terminals : Nat) (initial : StateId) (rows : List StateRow)
    (s : Nat) {terminal : SymbolId} {col : Nat} (hcol : terminal.index = nonTerminals + col) :
    (ofRows nonTerminals terminals initial rows).actions.get? s col =
      if col < terminals then rows[s]?.bind fun row => lastFor terminal row.actions else none := by
  have hplace : ∀ k : SymbolId, terminalColumn nonTerminals k = some col ↔ k = terminal := by
    intro k
    rw [terminalColumn_eq_some, ← SymbolId.index_inj]
    omega
  have hrows := lastFor_rows (fun row : StateRow => row.actions.filterMap fun p =>
    (terminalColumn nonTerminals p.1).map fun c => (c, p.2)) s col rows 0
  simp only [Nat.zero_le, if_true, Nat.sub_zero, lastFor_filterMap hplace] at hrows
  rw [ofRows, Grid.get?_ofEntries]
  by_cases hs : s < rows.length
  · rw [← hrows, actionEntries]
    refine ite_congr (propext (by omega)) (fun _ => ?_) (fun _ => rfl)
    simp [List.map_filterMap, Function.comp_def]
  · rw [if_neg (fun h => hs h.1), List.getElem?_eq_none (by omega), Option.bind_none, ite_self]

/-- A row of gotos holds the last one written in it for each non-terminal. -/
theorem get?_gotos (nonTerminals terminals : Nat) (initial : StateId) (rows : List StateRow)
    (s : Nat) (nonTerminal : SymbolId) :
    (ofRows nonTerminals terminals initial rows).gotos.get? s nonTerminal.index =
      if nonTerminal.index < nonTerminals then
        rows[s]?.bind fun row => lastFor nonTerminal row.gotos
      else none := by
  have hplace : ∀ k : SymbolId, some k.index = some nonTerminal.index ↔ k = nonTerminal := by
    intro k
    rw [Option.some.injEq, SymbolId.index_inj]
  have hrows := lastFor_rows (fun row : StateRow => row.gotos.filterMap fun p =>
    (some p.1.index).map fun c => (c, p.2)) s nonTerminal.index rows 0
  simp only [Nat.zero_le, if_true, Nat.sub_zero, lastFor_filterMap hplace] at hrows
  rw [ofRows, Grid.get?_ofEntries]
  by_cases hs : s < rows.length
  · rw [← hrows, gotoEntries]
    refine ite_congr (propext (by omega)) (fun _ => ?_) (fun _ => rfl)
    simp [Function.comp_def]
  · rw [if_neg (fun h => hs h.1), List.getElem?_eq_none (by omega), Option.bind_none, ite_self]

/-- The table does what was written last. -/
theorem action?_ofRows (nonTerminals terminals : Nat) (initial : StateId) (rows : List StateRow) :
    (ofRows nonTerminals terminals initial rows).action? =
      writtenAction nonTerminals terminals rows := by
  funext s terminal
  rw [action?, nonTerminals_ofRows, writtenAction]
  by_cases ht : nonTerminals ≤ terminal.index
  · obtain ⟨col, hcol⟩ := Nat.exists_eq_add_of_le ht
    rw [terminalColumn_eq_some.2 hcol, Option.bind_some,
      get?_actions nonTerminals terminals initial rows s.toNat hcol]
    exact ite_congr (propext (by omega)) (fun _ => rfl) (fun _ => rfl)
  · rw [terminalColumn, if_neg ht, Option.bind_none, if_neg (fun h => ht h.1)]

/-- The table goes where was written last. -/
theorem goto?_ofRows (nonTerminals terminals : Nat) (initial : StateId) (rows : List StateRow) :
    (ofRows nonTerminals terminals initial rows).goto? = writtenGoto nonTerminals rows := by
  funext s nonTerminal
  exact get?_gotos nonTerminals terminals initial rows s.toNat nonTerminal

variable {nonTerminals terminals : Nat} {initial : StateId} {rows : List StateRow}

/-- An action stands in the row of its state. -/
theorem mem_of_action? {s : StateId} {terminal : SymbolId} {a : Action}
    (h : (ofRows nonTerminals terminals initial rows).action? s terminal = some a) :
    ∃ row, rows[s.toNat]? = some row ∧ (terminal, a) ∈ row.actions := by
  rw [action?_ofRows, writtenAction] at h
  split at h
  · obtain ⟨row, hrow, hlast⟩ := Option.bind_eq_some_iff.1 h
    exact ⟨row, hrow, Grid.mem_of_lastFor hlast⟩
  · cases h

/-- A target stands in the row of its state. -/
theorem mem_of_goto? {s target : StateId} {nonTerminal : SymbolId}
    (h : (ofRows nonTerminals terminals initial rows).goto? s nonTerminal = some target) :
    ∃ row, rows[s.toNat]? = some row ∧ (nonTerminal, target) ∈ row.gotos := by
  rw [goto?_ofRows, writtenGoto] at h
  split at h
  · obtain ⟨row, hrow, hlast⟩ := Option.bind_eq_some_iff.1 h
    exact ⟨row, hrow, Grid.mem_of_lastFor hlast⟩
  · cases h

/-- The actions that the table holds were written down. -/
theorem mem_of_mem_actions {e : Nat × Nat × Action}
    (h : e ∈ (ofRows nonTerminals terminals initial rows).actions.entries) :
    ∃ row ∈ rows, ∃ q ∈ row.actions, q.2 = e.2.2 := by
  obtain ⟨⟨row, s⟩, hrow, hentry⟩ := List.mem_flatMap.1 (Grid.mem_of_mem_entries h)
  obtain ⟨q, hq, hcol⟩ := List.mem_filterMap.1 hentry
  obtain ⟨col, -, rfl⟩ := Option.map_eq_some_iff.1 hcol
  exact ⟨row, List.fst_mem_of_mem_zipIdx hrow, q, hq, rfl⟩

/-- The gotos that the table holds were written down. -/
theorem mem_of_mem_gotos {e : Nat × Nat × StateId}
    (h : e ∈ (ofRows nonTerminals terminals initial rows).gotos.entries) :
    ∃ row ∈ rows, ∃ q ∈ row.gotos, q.2 = e.2.2 := by
  obtain ⟨⟨row, s⟩, hrow, hentry⟩ := List.mem_flatMap.1 (Grid.mem_of_mem_entries h)
  obtain ⟨q, hq, rfl⟩ := List.mem_map.1 hentry
  exact ⟨row, List.fst_mem_of_mem_zipIdx hrow, q, hq, rfl⟩

end ShiftReduceTable

end TableParser
