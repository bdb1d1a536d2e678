import TableParser.Proofs.Engine.Soundness
import TableParser.Proofs.Script.Termination
import TableParser.Proofs.Tree.Agreement
/-!
Both engines read the settings language, and read it alike.

The tables are checked against the rules: what a symbol starts with and what may follow it, the rule
predicted before each of these, and for each goto of the automaton the way over the right sides of
the rules. So every sentence is read without an error by both engines, and into the same tree. In
the other direction a document that is read without an error is a sentence.

Main statement: `engines_agree`.
-/

namespace TableParser.Script

open ShiftReduceTable

/-! ### First and following terminals -/

/-- What each symbol may start with. -/
def sets : FirstSets where
  nullable s := s = config ∨ s = statements ∨ s = statementTail
  first s :=
    if s = config ∨ s = statements ∨ s = statement ∨ s = value then lbrace :: scalars
    else if s = statementTail then [specifier]
    else if s = scalar then scalars
    else if s = block then [lbrace]
    else [s]

/-- What may follow each non-terminal. -/
def following (s : SymbolId) : List SymbolId :=
  if s = config then [eof]
  else if s = statements then [eof, rbrace]
  else if s = scalar then specifier :: follow
  else follow

/-- The rules with their numbers. -/
def numbered : List (RuleId × Rule) := rules.zipIdx.map fun q => (RuleId.ofNat q.2, q.1)

theorem mem_numbered {rule : RuleId} {r : Rule} (h : tables.rule? rule = some r) :
    (rule, r) ∈ numbered := by
  rw [rule?_eq] at h
  refine List.mem_map.2 ⟨(r, rule.index), List.mem_zipIdx_iff_getElem?.2 h, ?_⟩
  rw [show RuleId.ofNat rule.index = rule from congrArg RuleId.mk UInt16.ofNat_toNat]

theorem first_numbered : ∀ q ∈ numbered, tables.isNonTerminal q.2.lhs = true ∧
    (q.2.rhs.all sets.nullable = true → sets.nullable q.2.lhs = true) ∧
    (∀ b ∈ sets.firstOf q.2.rhs, b ∈ sets.first q.2.lhs) ∧ eof ∉ q.2.rhs ∧ error ∉ q.2.rhs := by
  decide

theorem correct : sets.Correct tables where
  terminal {s} h := by
    have hne : ∀ x : SymbolId, tables.isNonTerminal x = true → s ≠ x := by
      rintro x hx rfl
      rw [h] at hx
      cases hx
    have : sets.first s = [s] := by
      simp [sets, hne config rfl, hne statements rfl, hne statement rfl, hne value rfl,
        hne statementTail rfl, hne scalar rfl, hne block rfl]
    rw [this]
    exact List.mem_cons_self
  nullable h := (first_numbered _ (mem_numbered h)).2.1
  first h := (first_numbered _ (mem_numbered h)).2.2.1

/-! ### The predictive table -/

theorem predicts_numbered : ∀ q ∈ numbered, ∀ a ∈ following q.2.lhs,
    (∀ b ∈ sets.begins q.2.rhs a, PredictionTable.written 7 12 predictions q.2.lhs b = some q.1) ∧
      Predictive.Fits tables sets following q.2.rhs a := by
  decide

theorem predictive_adequate : Predictive.Adequate tables prediction sets following where
  correct := correct
  kind h := (first_numbered _ (mem_numbered h)).1
  predicts h := by
    rw [get?_eq]
    exact fun a ha => (predicts_numbered _ (mem_numbered h) a ha).1
  fits h a ha := (predicts_numbered _ (mem_numbered h) a ha).2

/-! ### The shift-reduce table -/

theorem walks_numbered : ∀ e ∈ arcs stateRows, ∀ q ∈ numbered, q.2.lhs = e.2.1 →
    ∀ row ∈ stateRows[e.2.2.toNat]?, ∀ p ∈ row.actions,
      ∃ top ∈ ShiftReduce.walk tables (writtenAction 7 12 stateRows) (writtenGoto 7 stateRows) sets
        e.1 q.2.rhs p.1, writtenAction 7 12 stateRows top p.1 = some (.reduce q.1) := by
  decide

theorem shiftReduce_adequate : ShiftReduce.Adequate tables shiftReduce sets where
  correct := correct
  kind h := (first_numbered _ (mem_numbered h)).1
  reduces {rule r s s' b} h hgoto haction := by
    obtain ⟨action, haction⟩ := Option.isSome_iff_exists.1 haction
    obtain ⟨row, hrow, hmem⟩ := mem_of_action? haction
    rw [action?_eq, goto?_eq]
    exact walks_numbered _ (mem_arcs_of_leads (.inr hgoto)) _ (mem_numbered h) rfl row hrow _ hmem

theorem walk_start : ShiftReduce.walk tables shiftReduce.action? shiftReduce.goto? sets
    shiftReduce.initial [tables.start] tables.endOfStream = some 1 := by
  rw [action?_eq, goto?_eq]
  decide

theorem action_accept : shiftReduce.action? 1 tables.endOfStream = some .accept := by
  rw [action?_eq]
  decide

/-! ### Soundness -/

theorem predictive_consistent : Predictive.Consistent tables prediction where
  rule h := by
    have hrows : ∀ p ∈ predictions, ∃ r ∈ ruleAt p.rule, r.lhs = p.row := by decide
    obtain ⟨r, hr, hlhs⟩ := hrows _ (PredictionTable.mem_of_get? h)
    exact ⟨r, (rule?_eq _).trans hr, hlhs⟩
  start := by decide
  rhs h := (first_numbered _ (mem_numbered h)).2.2.2.1

/-- The one accepting state lies over the initial one. -/
theorem accept_rows : (∀ q ∈ stateRows.zipIdx, ∀ p ∈ q.1.actions, p.2 = .accept → q.2 = 1) ∧
    (∀ e ∈ arcs stateRows, e.2.2 = 1 → e.1 = 0 ∧ e.2.1 = config) ∧
    ∀ e ∈ arcs stateRows, e.2.2 ≠ 0 := by
  decide

theorem shiftReduce_consistent : ShiftReduce.Consistent tables shiftReduce (arcs stateRows) where
  closed := closed
  accept {s a xs below} h hspells := by
    obtain ⟨hrows, hone, hzero⟩ := accept_rows
    obtain ⟨row, hrow, hmem⟩ := mem_of_action? h
    have hs : s = 1 := UInt32.toNat_inj.1
      (hrows (row, s.toNat) (List.mem_zipIdx_iff_getElem?.2 hrow) _ hmem rfl)
    subst hs
    generalize hstates : (1 : StateId) :: below = states at hspells
    cases hspells with
    | start => cases hstates
    | move path leads =>
      cases hstates
      obtain ⟨hs, hx⟩ := hone _ (mem_arcs_of_leads leads) rfl
      simp only at hs hx
      subst hs hx
      generalize hstates : (0 : StateId) :: _ = states at path
      cases path with
      | start => rfl
      | move _ leads =>
        cases hstates
        exact absurd rfl (hzero _ (mem_arcs_of_leads leads))
  shift h := (high_arcs _ (mem_arcs_of_leads (.inl h))).2

/-! ### Reading a source -/

/-- A strategy reads a source to its end and reports no error. -/
def ReadsClean (strategy : Strategy) (showHidden : Bool) (source : String) : Prop :=
  ∃ e, Engine.start tables strategy showHidden source = .ok e ∧
    ∀ ev ∈ (e.run tables).1, ev.error? = none

section Source

variable {strategy : Strategy} {showHidden : Bool} {source : String} {e : Engine}

theorem last_ofSource (source : String) :
    (TokenStream.ofSource tables source).last.symbol = tables.endOfStream :=
  (TokenStream.symbol_ofScanner (.ofSource source)).1

/-- No token of a source is a non-terminal. -/
theorem terminal_ofSource (source : String) :
    ∀ tok ∈ (TokenStream.ofSource tables source).ahead,
      tables.isNonTerminal tok.symbol = false := by
  have hstates : ∀ st ∈ states, ∀ s ∈ st.accept, tables.isNonTerminal s = false := by decide
  refine TokenStream.forall_ofScanner (fun s hs => ?_) (.ofSource source)
  rcases Scanner.symbol_next (t := tables) hs with herror | ⟨st, hst, haccept⟩
  · rw [herror]
    rfl
  · exact hstates st (List.mem_toArray.1 hst) _ haccept

theorem tracks_start (h : Engine.start tables strategy showHidden source = .ok e) :
    e.machine.Tracks tables ((TokenStream.ofSource tables source).word tables) := by
  cases strategy with
  | predictive =>
    cases h
    exact ⟨predictive_consistent, ⟨[], rfl, .refl⟩, last_ofSource source, fun h => nomatch h⟩
  | shiftReduce =>
    cases h
    exact ⟨⟨_, shiftReduce_consistent⟩, ⟨[], [], .start, rfl, .refl⟩, last_ofSource source,
      fun h => absurd rfl h⟩

/-- A source that is read without an error is a sentence. -/
theorem sentence_of_readsClean (h : ReadsClean strategy showHidden source) :
    tables.IsSentence ((TokenStream.ofSource tables source).word tables) := by
  obtain ⟨e, he, hok⟩ := h
  obtain ⟨n, hn, hlimit⟩ := endsAfter_of_reachable (.start he)
  rw [Engine.run_eq hn hlimit] at hok
  refine ⟨Engine.derives_of_endsAfter (tracks_start he) hn hok, fun s hs => ?_⟩
  obtain ⟨tok, htok, rfl⟩ := List.mem_map.1 hs
  exact terminal_ofSource source tok (List.mem_filter.1 htok).1

/-- A sentence is a row of derivation trees after hidden tokens, and has no error token. -/
theorem exists_forest (h : tables.IsSentence ((TokenStream.ofSource tables source).word tables)) :
    ∃ (g : List Token) (f : Forest), (TokenStream.ofSource tables source).ahead = g ++ f.tokens ∧
      (∀ tok ∈ g, tables.isHidden tok.symbol = true) ∧ f.Derived tables [tables.start] ∧
      ∀ c ∈ f.cells, c.symbol ≠ tables.error := by
  obtain ⟨g, cells, hahead, hg, hcells, hsymbols⟩ := Cell.exists_cut (terminal_ofSource source)
  have hword : (TokenStream.ofSource tables source).word tables = cells.map Cell.symbol := by
    rw [← hsymbols]
    rfl
  obtain ⟨hderives, -⟩ := h
  have herror := hderives.not_mem (x := tables.error)
    (fun known => (first_numbered _ (mem_numbered known)).2.2.2.2) (by decide)
  rw [hword] at hderives herror
  obtain ⟨f, hf, rfl⟩ := Forest.exists_of_derives hcells hderives
  refine ⟨g, f, hahead, hg, hf, fun c hc hsymbol => herror ?_⟩
  rw [← hsymbol]
  exact List.mem_map_of_mem hc

end Source

/-- The events that some trees after hidden tokens ask a strategy for. -/
def eventsOf (showHidden : Bool) (f : Forest) (g : List Token) : Strategy → List Event
  | .predictive => f.opened showHidden g ++ shownAs .terminal showHidden (f.left g)
  | .shiftReduce => f.reduced showHidden g ++ shownAs .shift showHidden (f.kept g) ++ [.accept]

section Sentence

variable {f : Forest} {g : List Token} {showHidden : Bool} {source : String}

/-- The events of a sentence are no errors and report no error token. -/
theorem plain_eventsOf (hf : f.Derived tables [tables.start])
    (hg : ∀ tok ∈ g, tables.isHidden tok.symbol = true)
    (hok : ∀ c ∈ f.cells, c.symbol ≠ tables.error) (strategy : Strategy) :
    ∀ ev ∈ eventsOf showHidden f g strategy, ev.Plain fun tok => tok.symbol ≠ tables.error := by
  have hhidden : ∀ {ts : List Token}, (∀ tok ∈ ts, tables.isHidden tok.symbol = true) →
      ∀ tok ∈ ts, tok.symbol ≠ tables.error := by
    intro ts hts tok htok heq
    have herror := hts tok htok
    rw [heq] at herror
    cases herror
  have hcells : ∀ c ∈ f.cells, c.token.symbol ≠ tables.error ∧
      ∀ tok ∈ c.trivia, tok.symbol ≠ tables.error := fun c hc =>
    ⟨hok c hc, hhidden (hf.proper c hc).hidden⟩
  cases strategy with
  | predictive =>
    rw [eventsOf, List.forall_mem_append]
    exact ⟨Forest.plain_opened showHidden f hcells (hhidden hg),
      plain_shownAs (.inl rfl) (hhidden (hf.left_hidden hg))⟩
  | shiftReduce =>
    rw [eventsOf, List.forall_mem_append, List.forall_mem_append, List.forall_mem_singleton]
    exact ⟨⟨Forest.plain_reduced showHidden f hcells (hhidden hg),
      plain_shownAs (.inr rfl) (hhidden (hf.kept_hidden hg))⟩, rfl, by simp, by rintro tok ⟨⟩⟩

/-- A machine goes through the trees of a sentence and comes to the end. -/
theorem emits_eventsOf (showHidden : Bool) (hf : f.Derived tables [tables.start])
    (hg : ∀ tok ∈ g, tables.isHidden tok.symbol = true) {strategy : Strategy} {last : Token}
    (hlast : last.symbol = tables.endOfStream) {machine : Machine}
    (h : Machine.start tables strategy ⟨g ++ f.tokens, last⟩ = .ok machine) :
    ∃ machine', Emits (Machine.step tables showHidden) machine
      (eventsOf showHidden f g strategy) machine' ∧
      (machine'.step tables showHidden).1 = .endDocument := by
  cases strategy with
  | predictive =>
    cases h
    obtain ⟨m, hm, hend⟩ :=
      Predictive.emits_sentence showHidden predictive_adequate (by decide) hf hg hlast
    exact ⟨.predictive prediction m, hm.map (fun _ => rfl), hend⟩
  | shiftReduce =>
    cases h
    obtain ⟨m, hm, hend⟩ := ShiftReduce.emits_sentence showHidden shiftReduce_adequate walk_start
      action_accept hf hg hlast
    exact ⟨.shiftReduce shiftReduce m, hm.map (fun _ => rfl), hend⟩

/-- A strategy reads a sentence as its trees ask for. -/
theorem run_eventsOf (hf : f.Derived tables [tables.start])
    (hahead : (TokenStream.ofSource tables source).ahead = g ++ f.tokens)
    (hg : ∀ tok ∈ g, tables.isHidden tok.symbol = true)
    (hok : ∀ c ∈ f.cells, c.symbol ≠ tables.error) {strategy : Strategy} {e : Engine}
    (h : Engine.start tables strategy showHidden source = .ok e) :
    (e.run tables).1 = eventsOf showHidden f g strategy := by
  have hlast := last_ofSource source
  obtain ⟨last, hinput⟩ : ∃ last, TokenStream.ofSource tables source = ⟨g ++ f.tokens, last⟩ :=
    ⟨_, by rw [← hahead]⟩
  have hmachine := Engine.machine_of_start h
  rw [hinput] at hlast hmachine
  obtain ⟨machine, hes, hend⟩ := emits_eventsOf showHidden hf hg hlast hmachine
  rw [← (Engine.start_eq h).2.1] at hes hend
  have hmore : .endDocument ∉ eventsOf e.showHidden f g strategy := fun hmem =>
    (plain_eventsOf hf hg hok strategy _ hmem).more rfl
  have hends := Engine.endsAfter_of_emits hes hmore hend
  obtain ⟨n, hn, hlimit⟩ := endsAfter_of_reachable (.start h)
  rw [hn.unique hends] at hlimit
  rw [Engine.run_eq hends hlimit, (Engine.reads_of_emits hes).1, (Engine.start_eq h).2.1]

/-- The tree of a sentence. -/
theorem parse_eventsOf (hf : f.Derived tables [tables.start])
    (hahead : (TokenStream.ofSource tables source).ahead = g ++ f.tokens)
    (hg : ∀ tok ∈ g, tables.isHidden tok.symbol = true)
    (hok : ∀ c ∈ f.cells, c.symbol ≠ tables.error) (strategy : Strategy) (options : ParseOptions) :
    parse tables strategy options source = .ok
      (Builder.build tables options.shape (eventsOf options.showHidden f g strategy)) := by
  obtain ⟨e, he⟩ := exists_start strategy options.showHidden source
  rw [parse, he, ← run_eventsOf hf hahead hg hok he]
  rfl

end Sentence

/-- A sentence is read without an error. -/
theorem readsClean_of_sentence {source : String}
    (h : tables.IsSentence ((TokenStream.ofSource tables source).word tables)) (strategy : Strategy)
    (showHidden : Bool) : ReadsClean strategy showHidden source := by
  obtain ⟨g, f, hahead, hg, hf, hok⟩ := exists_forest h
  obtain ⟨e, he⟩ := exists_start strategy showHidden source
  refine ⟨e, he, fun ev hev => ?_⟩
  rw [run_eventsOf hf hahead hg hok he] at hev
  exact (plain_eventsOf hf hg hok strategy ev hev).ok

/-- Each engine reads a source without an error exactly if its tokens, less the hidden ones, make up
a sentence; and then both engines give the same tree, without errors, or both give none. -/
theorem engines_agree (options : ParseOptions) (source : String) :
    (ReadsClean .predictive options.showHidden source ↔
      tables.IsSentence ((TokenStream.ofSource tables source).word tables)) ∧
    (ReadsClean .shiftReduce options.showHidden source ↔
      tables.IsSentence ((TokenStream.ofSource tables source).word tables)) ∧
    (tables.IsSentence ((TokenStream.ofSource tables source).word tables) →
      ∃ tree, parse tables .predictive options source = .ok tree ∧
        parse tables .shiftReduce options source = .ok tree ∧
        ∀ n, tree = some n → n.hasErrors = false) := by
  refine ⟨⟨sentence_of_readsClean, fun h => readsClean_of_sentence h _ _⟩,
    ⟨sentence_of_readsClean, fun h => readsClean_of_sentence h _ _⟩, fun h => ?_⟩
  obtain ⟨g, f, hahead, hg, hf, hok⟩ := exists_forest h
  refine ⟨_, parse_eventsOf hf hahead hg hok .predictive options, ?_,
    fun n hn => Builder.hasErrors_build hn fun ev hev => ?_⟩
  · rw [parse_eventsOf hf hahead hg hok]
    exact congrArg Except.ok (Builder.build_agree hf hok g)
  · have hplain := plain_eventsOf hf hg hok .predictive ev hev
    exact ⟨hplain.ok, hplain.tokens⟩

end TableParser.Script
