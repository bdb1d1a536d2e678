import TableParser.Proofs.Grammar.Entries
import TableParser.Proofs.Grammar.Loading
/-!
Which grammars load.

A written grammar loads exactly when it is consistent, which is said here of the written lists
alone: no name is used twice, the non-terminals come first, every reference leads somewhere and has
the right kind. References that later entries overwrite do not count, only the last entry for each
cell does; the cells themselves have to exist for every entry. Each check is read as the rule that
it decides, and loading runs all of them.

Main statement: `Asset.load_iff_consistent`.
-/

namespace TableParser

theorem refuse_eq_ok {ε α β : Type} {c : Prop} [Decidable c] {e : ε} {f : α → Except ε β}
    {y : Except ε β} {b : β} :
    (if c then throw e >>= f else y) = .ok b ↔ ¬ c ∧ y = .ok b := by
  split
  · next h => exact ⟨fun hbad => (by cases hbad), fun hgood => absurd h hgood.1⟩
  · next h => exact ⟨fun hy => ⟨h, hy⟩, And.right⟩

theorem throw_if_eq_ok {ε : Type} {c : Prop} [Decidable c] {e : ε} :
    (if c then throw e else pure () : Except ε Unit) = .ok () ↔ ¬ c := by
  split
  · next h => exact ⟨fun hbad => (by cases hbad), fun hn => absurd h hn⟩
  · next h => exact ⟨fun _ => h, fun _ => rfl⟩

theorem pure_if_eq_ok {ε : Type} {c : Prop} [Decidable c] {e : ε} :
    (if c then pure () else throw e : Except ε Unit) = .ok () ↔ c := by
  split
  · next h => exact ⟨fun _ => h, fun _ => rfl⟩
  · next h => exact ⟨fun hbad => (by cases hbad), fun hc => absurd hc h⟩

namespace Asset

/-! ### Consistent grammars -/

variable {a : Asset}

/-- The id is that of a symbol of the grammar. -/
def HasSymbol (a : Asset) (s : SymbolId) : Prop := s.index < a.symbols.length

/-- The id is that of a symbol of a kind. -/
def HasKind (a : Asset) (s : SymbolId) (kind : SymbolKind) : Prop :=
  ∃ sym, a.symbols[s.index]? = some sym ∧ sym.kind = kind

/-- The id is that of a symbol that is no non-terminal. -/
def IsTerminal (a : Asset) (s : SymbolId) : Prop :=
  ∃ sym, a.symbols[s.index]? = some sym ∧ sym.kind ≠ .nonTerminal

/-- A consistent row of a shift-reduce table with some number of states. -/
structure ConsistentRow (a : Asset) (states : Nat) (row : StateRow) : Prop where
  actions : ∀ q ∈ row.actions, a.IsTerminal q.1
  gotos : ∀ q ∈ row.gotos, a.HasKind q.1 .nonTerminal
  shift : ∀ s target, IsLastFor Prod.fst row.actions (s, .shift target) → target.toNat < states
  reduce : ∀ s rule, IsLastFor Prod.fst row.actions (s, .reduce rule) → rule.index < a.rules.length
  goto : ∀ s target, IsLastFor Prod.fst row.gotos (s, target) → target.toNat < states

/-- A written grammar without a fault. -/
structure Consistent (a : Asset) : Prop where
  format : a.format = formatName
  version : a.version = formatVersion
  symbols_le : a.symbols.length ≤ 65535
  names_nodup : (a.symbols.map GrammarSymbol.name).Nodup
  /-- The non-terminals are the symbols before some place. -/
  layout : ∃ n, ∀ (i : Nat) (sym : GrammarSymbol), a.symbols[i]? = some sym →
    (sym.kind = .nonTerminal ↔ i < n)
  substitutes : ∀ sym ∈ a.symbols, ∀ s ∈ sym.substitute, a.HasSymbol s
  start : a.HasKind a.start .nonTerminal
  endOfStream : a.HasKind a.endOfStream .endOfStream
  error : a.HasKind a.error .error
  rules : ∀ r ∈ a.rules, a.HasKind r.lhs .nonTerminal ∧ ∀ s ∈ r.rhs, a.HasSymbol s
  initial : a.automaton.initial.toNat < a.automaton.states.size
  states : ∀ st ∈ a.automaton.states, (∀ s ∈ st.accept, a.IsTerminal s) ∧
    ∀ e ∈ st.edges, e.target.toNat < a.automaton.states.size
  blockEnds : ∀ b ∈ a.blockEnds, a.HasSymbol b.symbol
  terminators : ∀ b, IsLastFor BlockEnd.symbol a.blockEnds b → b.terminator ≠ ""
  cells : ∀ ps ∈ a.prediction, ∀ p ∈ ps, a.HasKind p.row .nonTerminal ∧ a.IsTerminal p.terminal
  predictions : ∀ ps ∈ a.prediction, ∀ p, IsLastFor (fun p => (p.row, p.terminal)) ps p →
    ∃ r, a.rules[p.rule.index]? = some r ∧ r.lhs = p.row
  shiftReduce : ∀ sr ∈ a.shiftReduce, sr.initial.toNat < sr.states.length ∧
    ∀ row ∈ sr.states, a.ConsistentRow sr.states.length row

/-! ### Kinds by place -/

/-- The non-terminals come first. -/
def Layered (a : Asset) : Prop :=
  ∀ (i : Nat) (sym : GrammarSymbol), a.symbols[i]? = some sym →
    (sym.kind = .nonTerminal ↔ i < a.nonTerminals)

theorem nonTerminals_le : a.nonTerminals ≤ a.symbols.length :=
  (List.takeWhile_sublist _).length_le

/-- The symbols counted as non-terminals are of that kind. -/
theorem kind_of_lt {i : Nat} {sym : GrammarSymbol} (h : a.symbols[i]? = some sym)
    (hi : i < a.nonTerminals) : sym.kind = .nonTerminal := by
  have htake : (a.symbols.takeWhile GrammarSymbol.isNonTerminal)[i]? = some sym := by
    rw [← List.takeWhile_append_dropWhile (p := GrammarSymbol.isNonTerminal) (l := a.symbols),
      List.getElem?_append_left hi] at h
    exact h
  have hall := List.all_eq_true.1 List.all_takeWhile sym (List.mem_of_getElem? htake)
  exact of_decide_eq_true hall

/-- Where non-terminals come first at all, they are as many as are counted. -/
theorem layered_iff :
    a.Layered ↔ ∃ n, ∀ (i : Nat) (sym : GrammarSymbol), a.symbols[i]? = some sym →
    (sym.kind = .nonTerminal ↔ i < n) := by
  constructor
  · exact fun h => ⟨a.nonTerminals, h⟩
  · rintro ⟨n, hn⟩ i sym hi
    refine ⟨fun hkind => ?_, kind_of_lt hi⟩
    -- the first symbol that is not counted is of another kind, so it does not come before `n`
    refine Nat.lt_of_not_le fun hle => ?_
    have hlt : a.nonTerminals < a.symbols.length :=
      Nat.lt_of_le_of_lt hle (List.getElem?_eq_some_iff.1 hi).1
    obtain ⟨first, hfirst⟩ : ∃ first, a.symbols[a.nonTerminals]? = some first :=
      ⟨_, List.getElem?_eq_getElem hlt⟩
    have hkind' : first.kind = .nonTerminal :=
      (hn _ _ hfirst).2 (by have := (hn i sym hi).1 hkind; omega)
    have hdrop := List.head?_dropWhile_not GrammarSymbol.isNonTerminal a.symbols
    have hhead : (a.symbols.dropWhile GrammarSymbol.isNonTerminal).head? = some first := by
      rw [← hfirst]
      conv => rhs; rw [← List.takeWhile_append_dropWhile (p := GrammarSymbol.isNonTerminal)
        (l := a.symbols)]
      rw [nonTerminals, List.getElem?_append_right (Nat.le_refl _), Nat.sub_self,
        List.head?_eq_getElem?]
    rw [hhead] at hdrop
    simp [GrammarSymbol.isNonTerminal, hkind'] at hdrop

theorem Layered.hasKind_iff (h : a.Layered) {s : SymbolId} :
    a.HasKind s .nonTerminal ↔ s.index < a.nonTerminals := by
  constructor
  · rintro ⟨sym, hsym, hkind⟩
    exact (h _ _ hsym).1 hkind
  · intro hs
    have hlt := Nat.lt_of_lt_of_le hs nonTerminals_le
    exact ⟨_, List.getElem?_eq_getElem hlt, (h _ _ (List.getElem?_eq_getElem hlt)).2 hs⟩

theorem Layered.isTerminal_iff (h : a.Layered) {s : SymbolId} :
    a.IsTerminal s ↔ a.nonTerminals ≤ s.index ∧ s.index < a.symbols.length := by
  constructor
  · rintro ⟨sym, hsym, hkind⟩
    exact ⟨Nat.le_of_not_lt fun hlt => hkind ((h _ _ hsym).2 hlt),
      (List.getElem?_eq_some_iff.1 hsym).1⟩
  · rintro ⟨hle, hlt⟩
    refine ⟨_, List.getElem?_eq_getElem hlt, fun hkind => ?_⟩
    have := (h _ _ (List.getElem?_eq_getElem hlt)).1 hkind
    omega

/-! ### What the tables could not hold -/

theorem checkHeader_eq_ok :
    a.checkHeader = .ok () ↔ a.format = formatName ∧ a.version = formatVersion := by
  rw [checkHeader, refuse_eq_ok, throw_if_eq_ok, not_not, not_not]

theorem checkSymbols_eq_ok : a.checkSymbols = .ok () ↔
    a.symbols.length ≤ maxSymbols ∧ (a.symbols.map GrammarSymbol.name).Nodup := by
  have hnames : firstRepeated ∅ (a.symbols.map GrammarSymbol.name) = none ↔ _ :=
    firstRepeated_eq_none
  rw [checkSymbols, refuse_eq_ok, Nat.not_lt]
  refine and_congr_right fun _ => ?_
  cases hr : firstRepeated ∅ (a.symbols.map GrammarSymbol.name) with
  | some name =>
    constructor
    · intro h; cases h
    · intro h
      rw [hnames.2 ⟨h, by simp⟩] at hr
      cases hr
  | none => exact ⟨fun _ => (hnames.1 hr).1, fun _ => rfl⟩

theorem checkBlockEnd_eq_ok {symbols : Nat} {b : BlockEnd} :
    checkBlockEnd symbols b = .ok () ↔ b.symbol.index < symbols := pure_if_eq_ok

theorem checkPrediction_eq_ok {nonTerminals symbols : Nat} {e : Prediction} :
    checkPrediction nonTerminals symbols e = .ok () ↔
      e.row.index < nonTerminals ∧ nonTerminals ≤ e.terminal.index ∧
      e.terminal.index < symbols := by
  rw [checkPrediction, refuse_eq_ok, throw_if_eq_ok]
  omega

theorem checkActionSymbol_eq_ok {nonTerminals symbols : Nat} {s : SymbolId} :
    checkActionSymbol nonTerminals symbols s = .ok () ↔
      nonTerminals ≤ s.index ∧ s.index < symbols := by
  rw [checkActionSymbol, throw_if_eq_ok]
  omega

theorem checkGotoSymbol_eq_ok {nonTerminals : Nat} {s : SymbolId} :
    checkGotoSymbol nonTerminals s = .ok () ↔ s.index < nonTerminals := pure_if_eq_ok

theorem checkRow_eq_ok {nonTerminals symbols : Nat} {row : StateRow} :
    checkRow nonTerminals symbols row = .ok () ↔
      (∀ q ∈ row.actions, nonTerminals ≤ q.1.index ∧ q.1.index < symbols) ∧
        ∀ q ∈ row.gotos, q.1.index < nonTerminals := by
  rw [checkRow, bind_unit_eq_ok, forM_eq_ok, forM_eq_ok]
  simp only [checkActionSymbol_eq_ok, checkGotoSymbol_eq_ok]

theorem checkShiftReduce_eq_ok {nonTerminals symbols : Nat} {sr : ShiftReduceAsset} :
    checkShiftReduce nonTerminals symbols sr = .ok () ↔ sr.initial.toNat < sr.states.length ∧
      ∀ row ∈ sr.states, (∀ q ∈ row.actions, nonTerminals ≤ q.1.index ∧ q.1.index < symbols) ∧
        ∀ q ∈ row.gotos, q.1.index < nonTerminals := by
  rw [checkShiftReduce, refuse_eq_ok, Nat.not_le, forM_eq_ok]
  simp only [checkRow_eq_ok]

/-- The tables hold what is written. -/
structure Fits (a : Asset) : Prop where
  symbols_le : a.symbols.length ≤ maxSymbols
  names_nodup : (a.symbols.map GrammarSymbol.name).Nodup
  blockEnds : ∀ b ∈ a.blockEnds, b.symbol.index < a.symbols.length
  predictions : ∀ ps ∈ a.prediction, ∀ p ∈ ps, p.row.index < a.nonTerminals ∧
    a.nonTerminals ≤ p.terminal.index ∧ p.terminal.index < a.symbols.length
  shiftReduce : ∀ sr ∈ a.shiftReduce, sr.initial.toNat < sr.states.length ∧
    ∀ row ∈ sr.states,
      (∀ q ∈ row.actions, a.nonTerminals ≤ q.1.index ∧ q.1.index < a.symbols.length) ∧
      ∀ q ∈ row.gotos, q.1.index < a.nonTerminals

theorem checkShape_eq_ok : a.checkShape = .ok () ↔ a.Fits := by
  have hprediction : (∀ p ∈ a.prediction.getD [],
      checkPrediction a.nonTerminals a.symbols.length p = .ok ()) ↔
        ∀ ps ∈ a.prediction, ∀ p ∈ ps, p.row.index < a.nonTerminals ∧
          a.nonTerminals ≤ p.terminal.index ∧ p.terminal.index < a.symbols.length := by
    simp only [checkPrediction_eq_ok]
    cases a.prediction <;> simp
  rw [checkShape, bind_unit_eq_ok, bind_unit_eq_ok, bind_unit_eq_ok, checkSymbols_eq_ok, forM_eq_ok,
    forM_eq_ok, hprediction]
  simp only [checkBlockEnd_eq_ok]
  constructor
  · rintro ⟨⟨hle, hnodup⟩, hends, hpredictions, hsr⟩
    refine ⟨hle, hnodup, hends, hpredictions, fun sr hmem => ?_⟩
    rw [Option.mem_def.1 hmem] at hsr
    exact checkShiftReduce_eq_ok.1 hsr
  · intro h
    refine ⟨⟨h.symbols_le, h.names_nodup⟩, h.blockEnds, h.predictions, ?_⟩
    cases hsr : a.shiftReduce with
    | none => rfl
    | some sr => exact checkShiftReduce_eq_ok.2 (h.shiftReduce sr hsr)

end Asset

/-! ### The tables -/

namespace Tables

variable {t : Tables}

theorem getSymbol_eq_ok {what : String} {s : SymbolId} {sym : GrammarSymbol} :
    t.getSymbol what s = .ok sym ↔ t.symbol? s = some sym := by
  rw [getSymbol]
  cases t.symbol? s <;> simp

/-- A look-up whose result is dropped asks for a symbol to be there. -/
theorem getSymbol_unit_eq_ok {what : String} {s : SymbolId} :
    (do let _ ← t.getSymbol what s; pure () : Except TableError Unit) = .ok () ↔
      s.index < t.symbols.size := by
  simp only [bind_eq_ok, getSymbol_eq_ok, symbol?, Array.getElem?_eq_some_iff]
  exact ⟨fun ⟨_, ⟨h, _⟩, _⟩ => h, fun h => ⟨_, ⟨h, rfl⟩, rfl⟩⟩

theorem checkLayout_eq_ok : t.checkLayout = .ok () ↔ ∀ (i : Nat) (sym : GrammarSymbol),
    t.symbols[i]? = some sym → t.nonTerminals ≤ i → sym.kind ≠ .nonTerminal := by
  rw [checkLayout, forM_eq_ok]
  simp only [throw_if_eq_ok, GrammarSymbol.isNonTerminal, decide_eq_true_eq]
  constructor
  · intro h i sym hi hle
    refine h (sym, i) (List.mem_iff_getElem?.2 ⟨i - t.nonTerminals, ?_⟩)
    rw [List.getElem?_drop, List.getElem?_zipIdx, Array.getElem?_toList,
      Nat.add_sub_cancel' hle, hi]
    simp
  · rintro h ⟨sym, i⟩ hmem
    obtain ⟨k, hk⟩ := List.mem_iff_getElem?.1 hmem
    rw [List.getElem?_drop, List.getElem?_zipIdx, Array.getElem?_toList] at hk
    obtain ⟨sym', hsym, heq⟩ := Option.map_eq_some_iff.1 hk
    cases heq
    exact h _ _ hsym (by omega)

theorem checkSubstitute_eq_ok {sym : GrammarSymbol} :
    t.checkSubstitute sym = .ok () ↔ ∀ s ∈ sym.substitute, s.index < t.symbols.size := by
  rw [checkSubstitute]
  cases sym.substitute with
  | none => exact ⟨fun _ s hs => (by cases hs), fun _ => rfl⟩
  | some sub =>
    rw [getSymbol_unit_eq_ok]
    simp

theorem checkRule_eq_ok {r : Rule} : t.checkRule r = .ok () ↔
    r.lhs.index < t.nonTerminals ∧ ∀ s ∈ r.rhs, s.index < t.symbols.size := by
  have hlhs : t.isNonTerminal r.lhs = true ↔ r.lhs.index < t.nonTerminals := decide_eq_true_iff
  rw [checkRule]
  split
  · next h =>
    rw [hlhs] at h
    refine ⟨fun hbad => ?_, fun hgood => absurd hgood.1 h⟩
    obtain ⟨sym, -, hbad⟩ := bind_eq_ok.1 hbad
    cases hbad
  · next h =>
    rw [not_not, hlhs] at h
    rw [forM_eq_ok]
    simp only [getSymbol_unit_eq_ok, h, true_and]

theorem checkState_eq_ok {st : AutomatonState} : t.checkState st = .ok () ↔
    (∀ s ∈ st.accept, ∃ sym, t.symbol? s = some sym ∧ sym.kind ≠ .nonTerminal) ∧
      ∀ e ∈ st.edges, e.target.toNat < t.automaton.states.size := by
  rw [checkState]
  cases st.accept with
  | none =>
    simp only [forM_eq_ok, pure_if_eq_ok]
    exact ⟨fun h => ⟨fun s hs => (by cases hs), h⟩, And.right⟩
  | some acc =>
    simp only [bind_eq_ok, getSymbol_eq_ok, refuse_eq_ok, forM_eq_ok, pure_if_eq_ok,
      Option.mem_some_iff, forall_eq', GrammarSymbol.isNonTerminal, decide_eq_true_eq]
    constructor
    · rintro ⟨sym, hsym, hkind, hedges⟩
      exact ⟨⟨sym, hsym, hkind⟩, hedges⟩
    · rintro ⟨⟨sym, hsym, hkind⟩, hedges⟩
      exact ⟨sym, hsym, hkind, hedges⟩

theorem checkAutomaton_eq_ok : t.checkAutomaton = .ok () ↔
    t.automaton.initial.toNat < t.automaton.states.size ∧
      ∀ st ∈ t.automaton.states, t.checkState st = .ok () := by
  rw [checkAutomaton, refuse_eq_ok, Nat.not_le, forM_eq_ok]
  simp only [Array.mem_toList_iff]

theorem checkTerminator_eq_ok {b : BlockEnd} :
    t.checkTerminator b = .ok () ↔ b.terminator ≠ "" := by
  rw [checkTerminator, throw_if_eq_ok, String.isEmpty_iff]

theorem checkPredicted_eq_ok {e : Prediction} :
    t.checkPredicted e = .ok () ↔ ∃ r, t.rule? e.rule = some r ∧ r.lhs = e.row := by
  rw [checkPredicted]
  cases t.rule? e.rule with
  | none => exact ⟨fun hbad => (by cases hbad), fun ⟨_, hr, _⟩ => by cases hr⟩
  | some r => simp [pure_if_eq_ok]

theorem checkAction_eq_ok {states : Nat} {a : Action} : t.checkAction states a = .ok () ↔
    (∀ target, a = .shift target → target.toNat < states) ∧
      ∀ rule, a = .reduce rule → rule.index < t.rules.size := by
  cases a with
  | shift target => simp [checkAction, pure_if_eq_ok]
  | reduce rule => simp [checkAction, pure_if_eq_ok]
  | accept => simp [checkAction, pure, Except.pure]

theorem checkGoto_eq_ok {states : Nat} {target : StateId} :
    checkGoto states target = .ok () ↔ target.toNat < states := pure_if_eq_ok

theorem checkShiftReduce_eq_ok {sr : ShiftReduceTable} : t.checkShiftReduce sr = .ok () ↔
    (∀ e ∈ sr.actions.entries, (∀ target, e.2.2 = .shift target → target.toNat < sr.states) ∧
      ∀ rule, e.2.2 = .reduce rule → rule.index < t.rules.size) ∧
    ∀ e ∈ sr.gotos.entries, e.2.2.toNat < sr.states := by
  rw [checkShiftReduce.eq_1, bind_unit_eq_ok, forM_eq_ok, forM_eq_ok]
  simp only [checkAction_eq_ok, checkGoto_eq_ok]

/-- Tables without a fault. -/
structure Checked (t : Tables) : Prop where
  layout : ∀ (i : Nat) (sym : GrammarSymbol), t.symbols[i]? = some sym → t.nonTerminals ≤ i →
    sym.kind ≠ .nonTerminal
  substitutes : ∀ sym ∈ t.symbols, ∀ s ∈ sym.substitute, s.index < t.symbols.size
  start : ∃ sym, t.symbol? t.start = some sym ∧ sym.kind = .nonTerminal
  endOfStream : ∃ sym, t.symbol? t.endOfStream = some sym ∧ sym.kind = .endOfStream
  error : ∃ sym, t.symbol? t.error = some sym ∧ sym.kind = .error
  rules : ∀ r ∈ t.rules, r.lhs.index < t.nonTerminals ∧ ∀ s ∈ r.rhs, s.index < t.symbols.size
  initial : t.automaton.initial.toNat < t.automaton.states.size
  states : ∀ st ∈ t.automaton.states,
    (∀ s ∈ st.accept, ∃ sym, t.symbol? s = some sym ∧ sym.kind ≠ .nonTerminal) ∧
      ∀ e ∈ st.edges, e.target.toNat < t.automaton.states.size
  terminators : ∀ b ∈ t.blockEndList, b.terminator ≠ ""
  predictions : ∀ p ∈ t.prediction, ∀ e ∈ p.entries, ∃ r, t.rule? e.rule = some r ∧ r.lhs = e.row
  actions : ∀ sr ∈ t.shiftReduce, ∀ e ∈ sr.actions.entries,
    (∀ target, e.2.2 = .shift target → target.toNat < sr.states) ∧
      ∀ rule, e.2.2 = .reduce rule → rule.index < t.rules.size
  gotos : ∀ sr ∈ t.shiftReduce, ∀ e ∈ sr.gotos.entries, e.2.2.toNat < sr.states

/-- Tables pass their check when they are without a fault. -/
theorem check_eq_ok : t.check = .ok () ↔ t.Checked := by
  rw [check, bind_unit_eq_ok, bind_unit_eq_ok, bind_unit_eq_ok, bind_unit_eq_ok, bind_unit_eq_ok,
    bind_unit_eq_ok, bind_unit_eq_ok, bind_unit_eq_ok, forM_eq_ok, forM_eq_ok, forM_eq_ok,
    checkKind_eq_ok, checkKind_eq_ok, checkKind_eq_ok, checkLayout_eq_ok, checkAutomaton_eq_ok]
  simp only [Array.mem_toList_iff, checkSubstitute_eq_ok, checkRule_eq_ok, checkState_eq_ok,
    checkTerminator_eq_ok]
  constructor
  · rintro ⟨hlayout, hsubstitutes, hstart, hend, herror, hrules, ⟨hinitial, hstates⟩, hends, hcells⟩
    have hparts : (∀ p ∈ t.prediction, p.entries.forM t.checkPredicted = .ok ()) ∧
        ∀ sr ∈ t.shiftReduce, t.checkShiftReduce sr = .ok () := by
      cases hp : t.prediction with
      | none =>
        rw [hp] at hcells
        refine ⟨fun p hmem => (by cases hmem), fun sr hsr => ?_⟩
        rwa [Option.mem_def.1 hsr] at hcells
      | some p =>
        rw [hp] at hcells
        obtain ⟨hpredictions, hcells⟩ := bind_unit_eq_ok.1 hcells
        refine ⟨fun p' hmem => (by cases hmem; exact hpredictions), fun sr hsr => ?_⟩
        rwa [Option.mem_def.1 hsr] at hcells
    simp only [forM_eq_ok, checkPredicted_eq_ok, checkShiftReduce_eq_ok] at hparts
    exact ⟨hlayout, hsubstitutes, hstart, hend, herror, hrules, hinitial, hstates, hends, hparts.1,
      fun sr hsr => (hparts.2 sr hsr).1, fun sr hsr => (hparts.2 sr hsr).2⟩
  · intro h
    refine ⟨h.layout, h.substitutes, h.start, h.endOfStream, h.error, h.rules,
      ⟨h.initial, h.states⟩, h.terminators, ?_⟩
    have hpredictions : ∀ p ∈ t.prediction, p.entries.forM t.checkPredicted = .ok () := fun p hp =>
      forM_eq_ok.2 fun e he => checkPredicted_eq_ok.2 (h.predictions p hp e he)
    have hshiftReduce : ∀ sr ∈ t.shiftReduce, t.checkShiftReduce sr = .ok () := fun sr hsr =>
      checkShiftReduce_eq_ok.2 ⟨h.actions sr hsr, h.gotos sr hsr⟩
    cases hp : t.prediction with
    | none =>
      cases hsr : t.shiftReduce with
      | none => rfl
      | some sr => exact hshiftReduce sr hsr
    | some p =>
      refine bind_unit_eq_ok.2 ⟨hpredictions p hp, ?_⟩
      cases hsr : t.shiftReduce with
      | none => rfl
      | some sr => exact hshiftReduce sr hsr

end Tables

/-! ### Both together -/

namespace Asset

variable {a : Asset}

theorem symbols_add : a.nonTerminals + a.terminals = a.symbols.length :=
  Nat.add_sub_cancel' nonTerminals_le

theorem symbol?_tables {s : SymbolId} : a.tables.symbol? s = a.symbols[s.index]? :=
  List.getElem?_toArray

theorem rule?_tables {rule : RuleId} : a.tables.rule? rule = a.rules[rule.index]? :=
  List.getElem?_toArray

theorem layered_iff_layout : a.Layered ↔ ∀ (i : Nat) (sym : GrammarSymbol),
    a.tables.symbols[i]? = some sym → a.tables.nonTerminals ≤ i → sym.kind ≠ .nonTerminal := by
  have hget : ∀ i : Nat, a.tables.symbols[i]? = a.symbols[i]? := fun i => List.getElem?_toArray
  simp only [hget]
  constructor
  · intro h i sym hi hle hkind
    exact absurd ((h i sym hi).1 hkind) (Nat.not_lt.2 hle)
  · intro h i sym hi
    exact ⟨fun hkind => Nat.lt_of_not_le fun hle => h i sym hi hle hkind, kind_of_lt hi⟩

namespace Fits

variable (fits : a.Fits)
include fits

/-- The block ends of the tables are the last ones written. -/
theorem forall_blockEnds {P : BlockEnd → Prop} : (∀ b ∈ a.tables.blockEndList, P b) ↔
    ∀ b, IsLastFor BlockEnd.symbol a.blockEnds b → P b := by
  simp only [mem_blockEndList (t := a.tables) rfl fits.blockEnds]

/-- The predictions of the tables are the last ones written. -/
theorem forall_predictions {P : Prediction → Prop} :
    (∀ p ∈ a.tables.prediction, ∀ e ∈ p.entries, P e) ↔
      ∀ ps ∈ a.prediction, ∀ e, IsLastFor (fun e => (e.row, e.terminal)) ps e → P e := by
  have hentries : ∀ ps ∈ a.prediction, ∀ e,
      e ∈ (PredictionTable.ofEntries a.nonTerminals a.terminals ps).entries ↔
        IsLastFor (fun e => (e.row, e.terminal)) ps e := by
    intro ps hps e
    refine PredictionTable.mem_entries_ofEntries fun p hp => ?_
    rw [symbols_add]
    exact fits.predictions ps hps p hp
  cases hp : a.prediction with
  | none => simp [tables, hp]
  | some ps => simp [tables, hp, hentries ps hp]

/-- The actions of the tables are the last ones written. -/
theorem forall_actions {P : Nat → Action → Prop} :
    (∀ sr ∈ a.tables.shiftReduce, ∀ e ∈ sr.actions.entries, P sr.states e.2.2) ↔
      ∀ sr ∈ a.shiftReduce, ∀ row ∈ sr.states, ∀ s action,
        IsLastFor Prod.fst row.actions (s, action) → P sr.states.length action := by
  cases hsr : a.shiftReduce with
  | none => simp [tables, hsr]
  | some sr =>
    have hin := fun row hrow => ((fits.shiftReduce sr hsr).2 row hrow).1
    rw [← symbols_add] at hin
    have hmem : ∀ action, (∃ r c, (r, c, action) ∈ (ShiftReduceTable.ofRows a.nonTerminals
        a.terminals sr.initial sr.states).actions.entries) ↔
        ∃ row ∈ sr.states, ∃ s, IsLastFor Prod.fst row.actions (s, action) :=
      fun _ => ShiftReduceTable.exists_mem_actions hin
    have hstates :
        (ShiftReduceTable.ofRows a.nonTerminals a.terminals sr.initial sr.states).states =
        sr.states.length := Grid.rows_ofEntries ..
    simp only [tables, hsr, Option.map_some, Option.mem_some_iff, forall_eq', hstates]
    constructor
    · intro h row hrow s action hlast
      obtain ⟨r, c, he⟩ := (hmem action).2 ⟨row, hrow, s, hlast⟩
      exact h _ he
    · rintro h ⟨r, c, action⟩ he
      obtain ⟨row, hrow, s, hlast⟩ := (hmem action).1 ⟨r, c, he⟩
      exact h row hrow s action hlast

/-- The gotos of the tables are the last ones written. -/
theorem forall_gotos {P : Nat → StateId → Prop} :
    (∀ sr ∈ a.tables.shiftReduce, ∀ e ∈ sr.gotos.entries, P sr.states e.2.2) ↔
      ∀ sr ∈ a.shiftReduce, ∀ row ∈ sr.states, ∀ s target,
        IsLastFor Prod.fst row.gotos (s, target) → P sr.states.length target := by
  cases hsr : a.shiftReduce with
  | none => simp [tables, hsr]
  | some sr =>
    have hin := fun row hrow => ((fits.shiftReduce sr hsr).2 row hrow).2
    have hmem : ∀ target, (∃ r c, (r, c, target) ∈ (ShiftReduceTable.ofRows a.nonTerminals
        a.terminals sr.initial sr.states).gotos.entries) ↔
        ∃ row ∈ sr.states, ∃ s, IsLastFor Prod.fst row.gotos (s, target) :=
      fun _ => ShiftReduceTable.exists_mem_gotos hin
    have hstates :
        (ShiftReduceTable.ofRows a.nonTerminals a.terminals sr.initial sr.states).states =
        sr.states.length := Grid.rows_ofEntries ..
    simp only [tables, hsr, Option.map_some, Option.mem_some_iff, forall_eq', hstates]
    constructor
    · intro h row hrow s target hlast
      obtain ⟨r, c, he⟩ := (hmem target).2 ⟨row, hrow, s, hlast⟩
      exact h _ he
    · rintro h ⟨r, c, target⟩ he
      obtain ⟨row, hrow, s, hlast⟩ := (hmem target).1 ⟨r, c, he⟩
      exact h row hrow s target hlast

/-- The actions of the tables lead to states and rules when those of the rows do. -/
theorem actions_lead_iff :
    (∀ sr ∈ a.tables.shiftReduce, ∀ e ∈ sr.actions.entries,
      (∀ target, e.2.2 = .shift target → target.toNat < sr.states) ∧
        ∀ rule, e.2.2 = .reduce rule → rule.index < a.tables.rules.size) ↔
    ∀ sr ∈ a.shiftReduce, ∀ row ∈ sr.states,
      (∀ s target, IsLastFor Prod.fst row.actions (s, .shift target) →
        target.toNat < sr.states.length) ∧
      ∀ s rule, IsLastFor Prod.fst row.actions (s, .reduce rule) → rule.index < a.rules.length := by
  rw [fits.forall_actions (P := fun states action =>
    (∀ target, action = .shift target → target.toNat < states) ∧
      ∀ rule, action = .reduce rule → rule.index < a.tables.rules.size)]
  refine forall₂_congr fun sr _ => forall₂_congr fun row _ => ⟨fun h => ?_, ?_⟩
  · exact ⟨fun s target hlast => (h s _ hlast).1 target rfl,
      fun s rule hlast => (h s _ hlast).2 rule rfl⟩
  · rintro ⟨hshift, hreduce⟩ s action hlast
    exact ⟨fun target heq => hshift s target (heq ▸ hlast),
      fun rule heq => hreduce s rule (heq ▸ hlast)⟩

/-- The gotos of the tables lead to states when those of the rows do. -/
theorem gotos_lead_iff :
    (∀ sr ∈ a.tables.shiftReduce, ∀ e ∈ sr.gotos.entries, e.2.2.toNat < sr.states) ↔
    ∀ sr ∈ a.shiftReduce, ∀ row ∈ sr.states, ∀ s target,
      IsLastFor Prod.fst row.gotos (s, target) → target.toNat < sr.states.length :=
  fits.forall_gotos (P := fun states target => target.toNat < states)

/-- A grammar that the tables can hold is consistent when they have no fault. -/
theorem consistent (hformat : a.format = formatName) (hversion : a.version = formatVersion)
    (checked : a.tables.Checked) : a.Consistent := by
  have layered := layered_iff_layout.2 checked.layout
  have hactions := fits.actions_lead_iff.1 checked.actions
  have hgotos := fits.gotos_lead_iff.1 checked.gotos
  have hkind : ∀ {s kind}, (∃ sym, a.tables.symbol? s = some sym ∧ sym.kind = kind) →
      a.HasKind s kind := by
    simp only [symbol?_tables]
    exact fun h => h
  exact {
    format := hformat
    version := hversion
    symbols_le := fits.symbols_le
    names_nodup := fits.names_nodup
    layout := layered_iff.1 layered
    substitutes := fun sym hsym => checked.substitutes sym (List.mem_toArray.2 hsym)
    start := hkind checked.start
    endOfStream := hkind checked.endOfStream
    error := hkind checked.error
    rules := fun r hr => ⟨layered.hasKind_iff.2 (checked.rules r (List.mem_toArray.2 hr)).1,
      (checked.rules r (List.mem_toArray.2 hr)).2⟩
    initial := checked.initial
    states := fun st hst => by
      have hstate := checked.states st hst
      simp only [symbol?_tables] at hstate
      exact hstate
    blockEnds := fits.blockEnds
    terminators := fits.forall_blockEnds.1 checked.terminators
    cells := fun ps hps p hp => ⟨layered.hasKind_iff.2 (fits.predictions ps hps p hp).1,
      layered.isTerminal_iff.2 (fits.predictions ps hps p hp).2⟩
    predictions := by
      simpa only [rule?_tables] using fits.forall_predictions.1 checked.predictions
    shiftReduce := fun sr hsr => ⟨(fits.shiftReduce sr hsr).1, fun row hrow => {
      actions := fun q hq =>
        layered.isTerminal_iff.2 (((fits.shiftReduce sr hsr).2 row hrow).1 q hq)
      gotos := fun q hq => layered.hasKind_iff.2 (((fits.shiftReduce sr hsr).2 row hrow).2 q hq)
      shift := (hactions sr hsr row hrow).1
      reduce := (hactions sr hsr row hrow).2
      goto := hgotos sr hsr row hrow }⟩ }

end Fits

namespace Consistent

variable (h : a.Consistent)
include h

theorem layered : a.Layered := layered_iff.2 h.layout

/-- The tables can hold a consistent grammar. -/
theorem fits : a.Fits where
  symbols_le := h.symbols_le
  names_nodup := h.names_nodup
  blockEnds := h.blockEnds
  predictions ps hps p hp := ⟨h.layered.hasKind_iff.1 (h.cells ps hps p hp).1,
    h.layered.isTerminal_iff.1 (h.cells ps hps p hp).2⟩
  shiftReduce sr hsr := ⟨(h.shiftReduce sr hsr).1, fun row hrow =>
    ⟨fun q hq => h.layered.isTerminal_iff.1 (((h.shiftReduce sr hsr).2 row hrow).actions q hq),
      fun q hq => h.layered.hasKind_iff.1 (((h.shiftReduce sr hsr).2 row hrow).gotos q hq)⟩⟩

/-- The tables of a consistent grammar have no fault. -/
theorem checked : a.tables.Checked where
  layout := layered_iff_layout.1 h.layered
  substitutes sym hsym := h.substitutes sym (List.mem_toArray.1 hsym)
  start := by simp only [symbol?_tables]; exact h.start
  endOfStream := by simp only [symbol?_tables]; exact h.endOfStream
  error := by simp only [symbol?_tables]; exact h.error
  rules r hr := ⟨h.layered.hasKind_iff.1 (h.rules r (List.mem_toArray.1 hr)).1,
    (h.rules r (List.mem_toArray.1 hr)).2⟩
  initial := h.initial
  states st hst := by simp only [symbol?_tables]; exact h.states st hst
  terminators := h.fits.forall_blockEnds.2 h.terminators
  predictions := by simp only [rule?_tables]; exact h.fits.forall_predictions.2 h.predictions
  actions := h.fits.actions_lead_iff.2 fun sr hsr row hrow =>
    ⟨((h.shiftReduce sr hsr).2 row hrow).shift, ((h.shiftReduce sr hsr).2 row hrow).reduce⟩
  gotos := h.fits.gotos_lead_iff.2 fun sr hsr row hrow => ((h.shiftReduce sr hsr).2 row hrow).goto

end Consistent

/-- A consistent grammar passes every check, and one that passes every check is consistent. -/
theorem consistent_iff : a.Consistent ↔
    (a.format = formatName ∧ a.version = formatVersion) ∧ a.Fits ∧ a.tables.Checked := by
  constructor
  · exact fun h => ⟨⟨h.format, h.version⟩, h.fits, h.checked⟩
  · rintro ⟨⟨hformat, hversion⟩, fits, checked⟩
    exact fits.consistent hformat hversion checked

/-- A grammar loads as its tables exactly when it is consistent. -/
theorem load_eq_ok_iff {t : Tables} : a.load = .ok t ↔ a.Consistent ∧ a.tables = t := by
  rw [load_eq_ok, consistent_iff, checkHeader_eq_ok, checkShape_eq_ok, Tables.check_eq_ok]
  simp only [and_assoc]

/-! ### Names -/

/-- A symbol is found by its name and by no other. -/
theorem lookup_tables (hnames : (a.symbols.map GrammarSymbol.name).Nodup)
    (hsize : a.symbols.length ≤ 65535) {name : String} {s : SymbolId} :
    a.tables.lookup name = some s ↔ ∃ sym, a.symbols[s.index]? = some sym ∧ sym.name = name := by
  have hfind : a.tables.lookup name =
      (a.symbols.findIdx? fun sym => sym.name == name).map SymbolId.ofNat :=
    congrArg (Option.map _) (List.findIdx?_toArray ..)
  rw [hfind, Option.map_eq_some_iff]
  constructor
  · rintro ⟨i, hi, rfl⟩
    obtain ⟨hlt, hname, -⟩ := List.findIdx?_eq_some_iff_getElem.1 hi
    rw [SymbolId.index_ofNat (by omega)]
    exact ⟨_, List.getElem?_eq_getElem hlt, beq_iff_eq.1 hname⟩
  · rintro ⟨sym, hsym, hname⟩
    refine ⟨s.index, ?_, SymbolId.ofNat_index s⟩
    obtain ⟨hlt, rfl⟩ := List.getElem?_eq_some_iff.1 hsym
    refine List.findIdx?_eq_some_iff_getElem.2 ⟨hlt, beq_iff_eq.2 hname, fun j hj hbeq => ?_⟩
    -- an earlier symbol of this name would be the symbol itself
    have hpair := List.pairwise_iff_getElem.1 hnames j s.index (by rw [List.length_map]; omega)
      (by rwa [List.length_map]) hj
    rw [List.getElem_map, List.getElem_map] at hpair
    exact hpair ((beq_iff_eq.1 hbeq).trans hname.symm)

/-- Exactly the consistent grammars load. In the tables of a grammar that loads, looking up a name
gives the symbol that has it, and `none` for a name that no symbol has. -/
theorem load_iff_consistent (a : Asset) : ((∃ t, a.load = .ok t) ↔ a.Consistent) ∧
    ∀ t, a.load = .ok t → ∀ name s,
      t.lookup name = some s ↔ ∃ sym, a.symbols[s.index]? = some sym ∧ sym.name = name := by
  refine ⟨?_, fun t h name s => ?_⟩
  · simp only [load_eq_ok_iff, exists_and_left, exists_eq', and_true]
  · obtain ⟨consistent, rfl⟩ := load_eq_ok_iff.1 h
    exact lookup_tables consistent.names_nodup consistent.symbols_le

end Asset

/-- The settings language is consistent, and its symbols are found by their names. -/
theorem Script.consistent_asset : asset.Consistent ∧ ∀ name s,
    tables.lookup name = some s ↔ ∃ sym, asset.symbols[s.index]? = some sym ∧ sym.name = name :=
  ⟨asset.load_iff_consistent.1.1 ⟨tables, load_asset⟩,
    asset.load_iff_consistent.2 tables load_asset⟩

end TableParser
