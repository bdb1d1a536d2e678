import TableParser.Proofs.Engine.Fault
import TableParser.Proofs.Script.Agreement
/-!
The first error of a settings document is at its fault, for both engines.

Every symbol of the grammar derives some word, and every state of the automaton stands in the middle
of a rule, so what an engine has passed without an error can go on to a sentence.

Main statement: `first_error_at_fault`.
-/

namespace TableParser.Script

open ShiftReduceTable

/-! ### Every symbol yields a word -/

theorem isNonTerminal_cases {s : SymbolId} (h : tables.isNonTerminal s = true) :
    s ∈ [config, statements, statement, statementTail, value, scalar, block] := by
  have hlt : s.index < 7 := of_decide_eq_true h
  have hall : ∀ n < 7, (⟨UInt16.ofNat n⟩ : SymbolId) ∈
      [config, statements, statement, statementTail, value, scalar, block] := by decide
  have hs := hall _ hlt
  rwa [SymbolId.index, UInt16.ofNat_toNat] at hs

theorem yields (s : SymbolId) : tables.Yields [s] := by
  have hterminal : ∀ {x : SymbolId}, tables.isNonTerminal x = false → tables.Yields [x] :=
    Tables.yields_terminal
  have hconfig : tables.Yields [config] := Tables.yields_of_rule (rule?_eq ⟨1⟩) (by simp)
  have hstatements : tables.Yields [statements] := Tables.yields_of_rule (rule?_eq ⟨3⟩) (by simp)
  have htail : tables.Yields [statementTail] := Tables.yields_of_rule (rule?_eq ⟨7⟩) (by simp)
  have hscalar : tables.Yields [scalar] :=
    Tables.yields_of_rule (rule?_eq ⟨10⟩) (by simpa using hterminal rfl)
  have hblock : tables.Yields [block] := Tables.yields_of_rule (rule?_eq ⟨15⟩)
    (by simpa using ⟨hterminal rfl, hstatements, hterminal rfl⟩)
  have hstatement : tables.Yields [statement] :=
    Tables.yields_of_rule (rule?_eq ⟨4⟩) (by simpa using ⟨hscalar, htail⟩)
  have hvalue : tables.Yields [value] :=
    Tables.yields_of_rule (rule?_eq ⟨8⟩) (by simpa using hscalar)
  cases h : tables.isNonTerminal s with
  | false => exact hterminal h
  | true =>
    have hs := isNonTerminal_cases h
    simp only [List.mem_cons, List.not_mem_nil, or_false] at hs
    rcases hs with rfl | rfl | rfl | rfl | rfl | rfl | rfl
    · exact hconfig
    · exact hstatements
    · exact hstatement
    · exact htail
    · exact hvalue
    · exact hscalar
    · exact hblock

/-! ### Every state stands in a rule -/

/-- The rule that a state of the automaton stands in, and how many symbols of its right side are
passed there. -/
def standing (s : StateId) : RuleId × Nat :=
  let rows : List (UInt16 × Nat) :=
    [(0, 0), (0, 0), (0, 1), (4, 1), (5, 1), (10, 1), (11, 1), (12, 1), (13, 1), (14, 1), (15, 1),
     (0, 2), (2, 1), (6, 1), (4, 2), (15, 2), (2, 2), (6, 2), (8, 1), (9, 1), (15, 3)]
  let row := rows.getD s.toNat (0, 0)
  (⟨row.1⟩, row.2)

/-- How often a left side may be the first symbol of another right side, from a state on. -/
def climb (s : StateId) : Nat :=
  [0, 0, 1, 2, 2, 3, 3, 3, 3, 3, 3, 0, 1, 1, 0, 0, 0, 0, 1, 1, 0].getD s.toNat 0

theorem standing_arcs : ∀ a ∈ arcs stateRows, a.2.2 = 1 ∨ ∃ r ∈ ruleAt (standing a.2.2).1,
    SafeReduction 0 (writtenGoto 7 stateRows) (arcs stateRows) a.2.2
      ⟨r.lhs, r.rhs.take (standing a.2.2).2⟩ ∧
      ∀ p ∈ backward (arcs stateRows) (r.rhs.take (standing a.2.2).2).length a.2.2,
        (writtenGoto 7 stateRows (exposed a.2.2 p) r.lhs).all fun target =>
          climb target + 8 < climb a.2.2 + 8 * (r.rhs.take (standing a.2.2).2).length := by
  decide +kernel

theorem completes : ShiftReduce.Completes tables shiftReduce (arcs stateRows) climb 8 where
  arcs := mem_arcs_of_leads
  stands a ha := by
    rcases standing_arcs a ha with hone | ⟨r, hr, safe, hlower⟩
    · exact .inl ⟨eof, by rw [hone]; exact action_accept⟩
    · refine .inr ⟨_, r, _, (rule?_eq _).trans hr, by rw [goto?_eq]; exact safe,
        fun p hp target htarget => ?_⟩
      rw [goto?_eq] at htarget
      have hall := hlower p hp
      rw [htarget, Option.all_some, decide_eq_true_eq] at hall
      exact hall

/-- What was passed without an error is viable. -/
theorem viable_of_clean {strategy : Strategy} {showHidden : Bool} {source : String} {e : Engine}
    (h : Engine.start tables strategy showHidden source = .ok e) {n : Nat}
    (hok : ∀ ev ∈ e.events tables n, ev.error? = none) :
    ∃ passed, e.machine.input.word tables = passed ++ (e.reads tables n).machine.input.word tables ∧
      tables.IsViable passed := by
  have hword : ∀ s ∈ (TokenStream.ofSource tables source).word tables,
      tables.isNonTerminal s = false := by
    intro s hs
    obtain ⟨tok, htok, rfl⟩ := List.mem_map.1 hs
    exact terminal_ofSource source tok (List.mem_filter.1 htok).1
  have htracks := Engine.tracks_reads (tracks_start h) hok
  have hbelongs := belongs_of_reachable ((Engine.Reachable.start h).reads n)
  rw [(Engine.start_eq h).1]
  cases hm : (e.reads tables n).machine with
  | predictive table m =>
    rw [hm] at htracks
    exact htracks.2.isViable hword yields
  | shiftReduce table m =>
    rw [hm] at htracks hbelongs
    obtain ⟨rfl, -⟩ := hbelongs
    exact htracks.2.isViable completes shiftReduce_consistent hword yields

/-! ### Engines on sentences -/

/-- A machine at the start, whatever the input. -/
theorem beside_start {strategy : Strategy} {input input' : TokenStream} {machine machine' : Machine}
    (h : Machine.start tables strategy input = .ok machine)
    (h' : Machine.start tables strategy input' = .ok machine') :
    Machine.Beside machine machine' := by
  cases strategy with
  | predictive =>
    cases h
    cases h'
    exact .predictive _ rfl rfl
  | shiftReduce =>
    cases h
    cases h'
    exact .shiftReduce _ rfl rfl

/-- No sentence has a hidden token, an error token or the end of the stream in it. -/
theorem plain_of_sentence {w : List SymbolId} (h : tables.IsSentence w) {s : SymbolId}
    (hs : s ∈ w) :
    tables.isHidden s = false ∧ s ≠ eof ∧ s ≠ error := by
  have hrules : ∀ q ∈ numbered, ∀ x ∈ q.2.rhs, tables.isHidden x = false ∧ x ≠ eof ∧ x ≠ error := by
    decide
  refine Classical.byContradiction fun hnot => ?_
  refine h.1.not_mem (fun known hx => hnot (hrules _ (mem_numbered known) _ hx)) ?_ hs
  intro hstart
  rw [List.mem_singleton.1 hstart] at hnot
  exact hnot (by decide)

/-- A token of a symbol with no text, as a cell. -/
def bare (s : SymbolId) : Cell := ⟨⟨s, "", .start⟩, []⟩

/-- A sentence has derivation trees over tokens without text. -/
theorem forest_of_sentence {w : List SymbolId} (h : tables.IsSentence w) :
    ∃ f : Forest, f.Derived tables [tables.start] ∧ f.cells = w.map bare ∧ f.word = w := by
  have hcells : ∀ c ∈ w.map bare, c.Proper tables := by
    intro c hc
    obtain ⟨s, hs, rfl⟩ := List.mem_map.1 hc
    exact ⟨(plain_of_sentence h hs).1, h.2 s hs, by simp [bare]⟩
  have hsymbols : (w.map bare).map Cell.symbol = w := by
    rw [List.map_map]
    exact List.map_id _
  obtain ⟨f, hf, hfcells⟩ := Forest.exists_of_derives hcells (by rw [hsymbols]; exact h.1)
  exact ⟨f, hf, hfcells, by rw [Forest.word, hfcells, hsymbols]⟩

/-- A sentence starts with what a document may start with. -/
theorem begins_of_sentence {w : List SymbolId} (h : tables.IsSentence w) :
    w.headD eof ∈ sets.begins [config] eof := by
  obtain ⟨f, hf, -, hword⟩ := forest_of_sentence h
  rw [← hword]
  exact sets.ahead_mem_begins correct hf eof

/-- Each sentence is read without an error from an input of its tokens. -/
theorem exists_clean (strategy : Strategy) {w : List SymbolId} (h : tables.IsSentence w) :
    ∃ input machine, Machine.start tables strategy input = .ok machine ∧ input.Sealed tables ∧
      input.word tables = w ∧ ∀ n,
        ((Engine.mk machine .initial false).reads tables (n + 1)).event.error? = none := by
  obtain ⟨f, hf, hcells, -⟩ := forest_of_sentence h
  have htokens : f.tokens = w.map fun s => (⟨s, "", .start⟩ : Token) := by
    rw [Forest.tokens, hcells, List.flatMap_map]
    exact List.flatMap_pure_eq_map _ _
  obtain ⟨machine, hmachine⟩ : ∃ machine,
      Machine.start tables strategy ⟨f.tokens, ⟨eof, "", .start⟩⟩ = .ok machine := by
    cases strategy <;> exact ⟨_, rfl⟩
  have hplain : ∀ tok ∈ f.tokens, tables.isHidden tok.symbol = false ∧ tok.symbol ≠ eof := by
    intro tok htok
    rw [htokens] at htok
    obtain ⟨s, hs, rfl⟩ := List.mem_map.1 htok
    obtain ⟨hshown, heof, -⟩ := plain_of_sentence h hs
    exact ⟨hshown, heof⟩
  refine ⟨_, machine, hmachine, ⟨rfl, rfl, fun tok htok => (hplain tok htok).2⟩, ?_, ?_⟩
  · have hshown : ∀ tok ∈ f.tokens, (false || !tables.isHidden tok.symbol) = true :=
      fun tok htok => by
      simp [(hplain tok htok).1]
    rw [TokenStream.word, TokenStream.shown, List.filter_eq_self.2 hshown, htokens, List.map_map]
    exact List.map_id _
  · obtain ⟨machine', hes, hend⟩ := emits_eventsOf (g := []) false hf (by simp) rfl hmachine
    have herror : ∀ c ∈ f.cells, c.symbol ≠ tables.error := by
      intro c hc
      rw [hcells] at hc
      obtain ⟨s, hs, rfl⟩ := List.mem_map.1 hc
      exact (plain_of_sentence h hs).2.2
    have hevents : ∀ ev ∈ eventsOf false f [] strategy, ev.Plain fun tok =>
        tok.symbol ≠ tables.error :=
      plain_eventsOf hf (by simp) herror strategy
    exact Engine.clean_of_emits (e := ⟨machine, .initial, false⟩) hes
      (fun hmem => (hevents _ hmem).more rfl) hend fun ev hev => (hevents ev hev).ok

/-! ### The first error -/

/-- An engine that passes over hidden tokens reports an error on an input that is no sentence, and
its first one is at the fault. -/
theorem fault_of_run {strategy : Strategy} {source : String} {e : Engine}
    (h : Engine.start tables strategy false source = .ok e)
    (hnot : ¬ tables.IsSentence ((TokenStream.ofSource tables source).word tables)) :
    ∃ tok err, tables.FaultAt ((TokenStream.ofSource tables source).visible tables) tok ∧
      (e.run tables).1.findSome? Event.error? = some err ∧ err.position = tok.position := by
  obtain ⟨n, hn, hlimit⟩ := endsAfter_of_reachable (.start h)
  obtain ⟨hinput, hplain, -⟩ := Engine.start_eq h
  have hsealed : e.machine.input.Sealed tables := hinput ▸ endsLast.sealed_ofSource source
  have hsentences : ∀ w, tables.IsSentence w → ∃ e' : Engine, e'.showHidden = false ∧
      Machine.Beside e.machine e'.machine ∧ e'.machine.input.Sealed tables ∧
      e'.machine.input.word tables = w ∧ ∀ n, (e'.reads tables (n + 1)).event.error? = none := by
    intro w hw
    obtain ⟨input, machine, hmachine, hsealed', hword, hclean⟩ := exists_clean strategy hw
    rw [← Machine.input_start hmachine] at hsealed' hword
    exact ⟨⟨machine, .initial, false⟩, rfl, beside_start (Engine.machine_of_start h) hmachine,
      hsealed', hword, hclean⟩
  rw [Engine.run_eq hn hlimit]
  cases hfirst : (e.events tables n).findSome? Event.error? with
  | none =>
    refine absurd (sentence_of_readsClean ⟨e, h, ?_⟩) hnot
    rw [Engine.run_eq hn hlimit]
    exact List.findSome?_eq_none_iff.1 hfirst
  | some err =>
    obtain ⟨before, ev, after, hsplit, herr, hbefore⟩ := List.findSome?_eq_some_iff.1 hfirst
    obtain ⟨hevents, hlastEvent⟩ := Engine.events_split hsplit
    obtain ⟨tok, hfault, hposition⟩ := Engine.faultAt_of_error hplain hsealed hsentences
      (viable_of_clean h (by rw [hevents]; exact hbefore))
        (hlastEvent.trans (Event.error?_eq_some.1 herr))
    rw [hinput] at hfault
    exact ⟨tok, err, hfault, rfl, hposition⟩

/-- Showing hidden tokens leaves the first error as it is. -/
theorem findSome_visible (events : List Event) :
    (Engine.visible tables events).findSome? Event.error? = events.findSome? Event.error? := by
  induction events with
  | nil => rfl
  | cons ev events ih =>
    cases hhidden : ev.isHidden tables with
    | true =>
      have herror : ev.error? = none := by
        cases ev <;> first | rfl | cases hhidden
      rw [Engine.visible_cons_hidden hhidden, ih, List.findSome?_cons, herror]
    | false => rw [Engine.visible_cons_shown hhidden, List.findSome?_cons, List.findSome?_cons, ih]

/-- An input whose tokens, less the hidden ones, are no sentence has a fault: the first token, the
end of the stream included, up to which it is not the beginning of a sentence with the end of the
stream after it. Both engines, showing hidden tokens or not, report an error, and the first error of
each is at the fault. -/
theorem first_error_at_fault {source : String}
    (h : ¬ tables.IsSentence ((TokenStream.ofSource tables source).word tables)) :
    ∃ tok, tables.FaultAt ((TokenStream.ofSource tables source).visible tables) tok ∧
      ∀ strategy showHidden, ∃ e err, Engine.start tables strategy showHidden source = .ok e ∧
        (e.run tables).1.findSome? Event.error? = some err ∧ err.position = tok.position := by
  obtain ⟨e, he⟩ := exists_start .predictive false source
  obtain ⟨tok, -, hfault, -⟩ := fault_of_run he h
  refine ⟨tok, hfault, fun strategy showHidden => ?_⟩
  obtain ⟨e', he'⟩ := exists_start strategy false source
  obtain ⟨tok', err, hfault', hfirst, hposition⟩ := fault_of_run he' h
  obtain rfl := hfault.unique hfault'
  cases showHidden with
  | false => exact ⟨e', err, he', hfirst, hposition⟩
  | true =>
    obtain ⟨e, he⟩ := exists_start strategy true source
    refine ⟨e, err, he, ?_, hposition⟩
    obtain ⟨n, hn, hlimit⟩ := endsAfter_of_reachable (.start he)
    obtain ⟨k, hk, hlimit'⟩ := endsAfter_of_reachable (.start he')
    obtain ⟨k', hk', hevents⟩ := (Engine.Shadows.start rfl he he').endsAfter.1 n hn
    obtain rfl := hk.unique hk'
    rw [Engine.run_eq hk hlimit'] at hfirst
    rw [Engine.run_eq hn hlimit, ← findSome_visible, hevents]
    exact hfirst

/-- The tokens of a document that is one operator. -/
theorem ofSource_operator : TokenStream.ofSource tables "=" =
    ⟨[⟨specifier, "=", .start⟩], ⟨eof, "", ⟨1, 2, 1⟩⟩⟩ := by
  have hnext : Scanner.next tables (.ofSource "=") =
      (⟨specifier, "=", .start⟩, ⟨"=", [], ⟨1, 2, 1⟩⟩) := rfl
  have hmore : (Scanner.next tables (.ofSource "=")).1.symbol ≠ tables.endOfStream := by
    rw [hnext]
    decide
  rw [TokenStream.ofSource, TokenStream.ofScanner_more hmore, hnext, TokenStream.ofScanner_last rfl]
  rfl

theorem first_error_at_fault_operator :
    ¬ tables.IsSentence ((TokenStream.ofSource tables "=").word tables) ∧
      ∃ tok, tables.FaultAt ((TokenStream.ofSource tables "=").visible tables) tok ∧
        ∀ strategy showHidden, ∃ e err, Engine.start tables strategy showHidden "=" = .ok e ∧
          (e.run tables).1.findSome? Event.error? = some err ∧ err.position = tok.position := by
  have hnot : ¬ tables.IsSentence ((TokenStream.ofSource tables "=").word tables) := by
    intro h
    have hbegins := begins_of_sentence h
    rw [ofSource_operator] at hbegins
    revert hbegins
    decide
  exact ⟨hnot, first_error_at_fault hnot⟩

end TableParser.Script
