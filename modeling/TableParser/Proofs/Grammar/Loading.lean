import TableParser.Grammar.Script
import TableParser.Proofs.Grammar.Cell
/-!
What a loaded grammar is known to be.

Loading runs checks one after the other, so a grammar that loads has passed each of them. The names
of its symbols are pairwise different, and its end-of-stream symbol and its error symbol are of the
kinds that they are used for, so they are two symbols. The settings language loads.

Main statements: `Asset.load_eq_ok`, `Asset.firstRepeated_eq_none` and `Script.load_asset`.
-/

namespace TableParser

theorem bind_eq_ok {ε α β : Type} {x : Except ε α} {f : α → Except ε β} {b : β} :
    x >>= f = .ok b ↔ ∃ a, x = .ok a ∧ f a = .ok b := by
  cases x <;> simp [bind, Except.bind]

/-- Checks in a row pass when each of them does. -/
theorem bind_unit_eq_ok {ε β : Type} {x : Except ε Unit} {y : Except ε β} {b : β} :
    (do x; y) = .ok b ↔ x = .ok () ∧ y = .ok b := by
  rw [bind_eq_ok]
  constructor
  · rintro ⟨⟨⟩, hx, hy⟩
    exact ⟨hx, hy⟩
  · rintro ⟨hx, hy⟩
    exact ⟨(), hx, hy⟩

theorem forM_eq_ok {ε α : Type} {f : α → Except ε Unit} {l : List α} :
    l.forM f = .ok () ↔ ∀ x ∈ l, f x = .ok () := by
  induction l with
  | nil => simp [pure, Except.pure]
  | cons x l ih => rw [List.forall_mem_cons, ← ih]; exact bind_unit_eq_ok

namespace Asset

/-- A grammar loads as its tables when the header, the shape and the tables pass their checks. -/
theorem load_eq_ok {a : Asset} {t : Tables} :
    a.load = .ok t ↔ a.checkHeader = .ok () ∧ a.checkShape = .ok () ∧ a.tables.check = .ok () ∧
      a.tables = t := by
  rw [load, bind_unit_eq_ok, bind_unit_eq_ok, bind_unit_eq_ok]
  simp [pure, Except.pure]

/-- The tables of a loaded grammar have passed their check. -/
theorem check_of_load {a : Asset} {t : Tables} (hload : a.load = .ok t) : t.check = .ok () := by
  obtain ⟨-, -, hcheck, rfl⟩ := load_eq_ok.1 hload
  exact hcheck

/-- No text is repeated exactly when all are different and none was seen before. -/
theorem firstRepeated_eq_none {l : List String} :
    ∀ {seen : Std.HashSet String}, firstRepeated seen l = none ↔ l.Nodup ∧ ∀ s ∈ l, s ∉ seen := by
  induction l with
  | nil => intro seen; simp [firstRepeated]
  | cons s rest ih =>
    intro seen
    rw [firstRepeated]
    by_cases hs : s ∈ seen
    · simp [hs]
    · rw [if_neg (by simpa using hs), ih]
      simp only [List.nodup_cons, List.forall_mem_cons, Std.HashSet.mem_insert, beq_iff_eq, not_or]
      constructor
      · rintro ⟨hnodup, hnew⟩
        refine ⟨⟨fun hmem => (hnew s hmem).1 rfl, hnodup⟩, hs, fun s' hs' => (hnew s' hs').2⟩
      · rintro ⟨⟨hnot, hnodup⟩, -, hnew⟩
        refine ⟨hnodup, fun s' hs' => ⟨?_, hnew s' hs'⟩⟩
        rintro rfl
        exact hnot hs'

end Asset

namespace Tables

theorem checkKind_eq_ok {t : Tables} {s : SymbolId} {kind : SymbolKind} {expected : String} :
    t.checkKind s kind expected = .ok () ↔ ∃ sym, t.symbol? s = some sym ∧ sym.kind = kind := by
  rw [checkKind, bind_eq_ok]
  constructor
  · rintro ⟨sym, hsym, hkind⟩
    rw [getSymbol] at hsym
    cases hs : t.symbol? s with
    | none => rw [hs] at hsym; cases hsym
    | some sym =>
      rw [hs] at hsym
      cases hsym
      refine ⟨sym, rfl, Decidable.byContradiction fun hne => ?_⟩
      rw [if_pos hne] at hkind
      cases hkind
  · rintro ⟨sym, hsym, hkind⟩
    refine ⟨sym, by rw [getSymbol, hsym], ?_⟩
    rw [if_neg (not_not_intro hkind)]
    rfl

/-- Checked tables have an end-of-stream symbol and an error symbol of their kinds. -/
theorem kinds_of_check {t : Tables} (h : t.check = .ok ()) :
    (∃ sym, t.symbol? t.endOfStream = some sym ∧ sym.kind = .endOfStream) ∧
      ∃ sym, t.symbol? t.error = some sym ∧ sym.kind = .error := by
  rw [check, bind_unit_eq_ok, bind_unit_eq_ok, bind_unit_eq_ok, bind_unit_eq_ok,
    bind_unit_eq_ok] at h
  obtain ⟨-, -, -, hend, herror, -⟩ := h
  exact ⟨checkKind_eq_ok.1 hend, checkKind_eq_ok.1 herror⟩

/-- Checked tables have two symbols for the end of the stream and for errors. -/
theorem error_ne_endOfStream {t : Tables} (h : t.check = .ok ()) : t.error ≠ t.endOfStream := by
  obtain ⟨⟨sym, hsym, hkind⟩, ⟨sym', hsym', hkind'⟩⟩ := kinds_of_check h
  intro heq
  rw [heq, hsym, Option.some.injEq] at hsym'
  rw [hsym', hkind'] at hkind
  cases hkind

end Tables

namespace Script

theorem eq_ok_of_isOk {ε : Type} {x : Except ε Unit} (h : x.isOk = true) : x = .ok () := by
  cases x with
  | error e => cases h
  | ok u => rfl

theorem checkShape_asset : asset.checkShape = .ok () := by
  have hnames : (asset.symbols.map GrammarSymbol.name).Nodup := by decide
  rw [Asset.checkShape, bind_unit_eq_ok]
  refine ⟨?_, eq_ok_of_isOk (by decide)⟩
  rw [Asset.checkSymbols, Asset.firstRepeated_eq_none.2 ⟨hnames, by simp⟩]
  rfl

theorem check_tables : tables.check = .ok () := by
  have hpredictions : ∀ p ∈ predictions, (tables.checkPredicted p).isOk = true := by
    decide
  have hrows : ∀ row ∈ stateRows, (∀ q ∈ row.actions, (tables.checkAction 21 q.2).isOk = true) ∧
      ∀ q ∈ row.gotos, (Tables.checkGoto 21 q.2).isOk = true := by
    decide
  have hprediction : tables.prediction = some (.ofEntries 7 12 predictions) := rfl
  have hshiftReduce : tables.shiftReduce = some (.ofRows 7 12 0 stateRows) := rfl
  have hstates : (ShiftReduceTable.ofRows 7 12 0 stateRows).states = 21 := by
    rw [ShiftReduceTable.states, ShiftReduceTable.ofRows, Grid.rows_ofEntries]
    rfl
  rw [Tables.check, hprediction, hshiftReduce]
  -- every check but those of the two parse tables is computed
  iterate 8 refine bind_unit_eq_ok.2 ⟨eq_ok_of_isOk (by decide), ?_⟩
  refine bind_unit_eq_ok.2 ⟨forM_eq_ok.2 ?_, bind_unit_eq_ok.2 ⟨forM_eq_ok.2 ?_, forM_eq_ok.2 ?_⟩⟩
  · intro p hp
    exact eq_ok_of_isOk (hpredictions p (PredictionTable.mem_of_mem_entries hp))
  · rintro ⟨s, col, a⟩ ha
    obtain ⟨row, hrow, q, hq, rfl⟩ := ShiftReduceTable.mem_of_mem_actions ha
    rw [hstates]
    exact eq_ok_of_isOk ((hrows row hrow).1 q hq)
  · rintro ⟨s, col, target⟩ ht
    obtain ⟨row, hrow, q, hq, rfl⟩ := ShiftReduceTable.mem_of_mem_gotos ht
    rw [hstates]
    exact eq_ok_of_isOk ((hrows row hrow).2 q hq)

/-- The settings language loads. -/
theorem load_asset : asset.load = .ok tables :=
  Asset.load_eq_ok.2 ⟨rfl, checkShape_asset, check_tables, rfl⟩

end Script

end TableParser
