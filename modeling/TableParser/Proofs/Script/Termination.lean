import TableParser.Proofs.Engine.Passage
import TableParser.Proofs.Engine.Progress
import TableParser.Proofs.Script.Automaton
import TableParser.Proofs.Tree.Leaves
/-!
Documents of the settings language end.

Predictions fall in rank: a document or a list of statements starts with a statement, a statement
with a scalar or a block, and these with a token. Reductions make the stack lighter. So both engines
come to the end of every document after a number of reads that grows with the input and the stack,
long before the limit of a run. A document without a token to show has no tree, and every other one
has.

Main statement: `document_ends`.
-/

namespace TableParser

/-- A predicted rule was written down. -/
theorem PredictionTable.mem_of_get? {nonTerminals terminals : Nat} {entries : List Prediction}
    {s a : SymbolId} {rule : RuleId}
    (h : (ofEntries nonTerminals terminals entries).get? s a = some rule) :
    ⟨s, a, rule⟩ ∈ entries := by
  rw [get?_ofEntries, written] at h
  split at h
  · obtain ⟨p, hp, heq⟩ := List.mem_map.1 (Grid.mem_of_lastFor h)
    rw [cell, Prod.mk.injEq, Prod.mk.injEq] at heq
    obtain ⟨⟨rfl, rfl⟩, rfl⟩ := heq
    exact hp
  · cases h

namespace Script

open ShiftReduceTable

/-! ### Predictions -/

/-- How many expansions a symbol may need before it starts with a token. -/
def rank (s : SymbolId) : Nat :=
  if s = config ∨ s = statements then 3
  else if s = statement ∨ s = value then 2
  else if s = statementTail ∨ s = scalar ∨ s = block then 1
  else 0

/-- The right side of a rule, empty for a number without a rule. -/
def rhsOf (rule : RuleId) : List SymbolId := (ruleAt rule).elim [] Rule.rhs

theorem body_eq (rule : RuleId) : Predictive.body tables rule = (rhsOf rule).map .symbol := by
  rw [Predictive.body, rule?_eq, rhsOf]
  cases ruleAt rule <;> rfl

theorem rhsOf_predictions : ∀ p ∈ predictions,
    (rhsOf p.rule).length ≤ 3 ∧ (p.terminal = eof → rhsOf p.rule = []) := by
  decide

theorem rank_predictions : ∀ p ∈ predictions, ∀ y ∈ (rhsOf p.rule).head?, 0 < rank p.row ∧
    ∀ rule ∈ PredictionTable.written 7 12 predictions y p.terminal,
      rhsOf rule ≠ [] ∧ rank y < rank p.row := by
  decide

theorem ranked : Predictive.Ranked tables prediction rank 3 3 where
  rank_le s := by
    rw [rank]
    split
    · omega
    · split
      · omega
      · split <;> omega
  length_le h := by
    rw [body_eq, List.length_map]
    exact (rhsOf_predictions _ (PredictionTable.mem_of_get? h)).1
  symbols {s a rule} h hbody := by
    rw [body_eq] at hbody ⊢
    cases hrhs : rhsOf rule with
    | nil => rw [hrhs] at hbody; exact absurd rfl hbody
    | cons y rest =>
      obtain ⟨hpos, hnext⟩ :=
        rank_predictions _ (PredictionTable.mem_of_get? h) y (by rw [hrhs]; rfl)
      refine ⟨y, rest.map .symbol, rfl, hpos, fun rule' h' => ?_⟩
      rw [get?_eq] at h'
      rw [body_eq, ne_eq, List.map_eq_nil_iff]
      exact hnext rule' h'
  at_end h := by
    rw [body_eq, (rhsOf_predictions _ (PredictionTable.mem_of_get? h)).2 rfl]
    rfl

/-! ### Reductions -/

/-- The weight of each automaton state on top of the stack. -/
def high (s : StateId) : Nat :=
  [2, 0, 2, 4, 3, 5, 5, 5, 5, 5, 2, 0, 2, 0, 2, 0, 0, 2, 3, 3, 2].getD s.toNat 0

theorem high_reductions : ∀ q ∈ reductions stateRows, ∀ r ∈ ruleAt q.2,
    ∀ p ∈ backward (arcs stateRows) r.rhs.length q.1,
      (writtenGoto 7 stateRows (exposed q.1 p) r.lhs).all
        (fun target => high target + 1 < high q.1 + p.length) = true := by
  decide

theorem high_arcs : ∀ e ∈ arcs stateRows, high e.2.2 + 1 < high e.1 + 8 ∧ e.2.1 ≠ eof := by
  decide

theorem weighed : ShiftReduce.Weighed tables shiftReduce (arcs stateRows) high 8 where
  closed := closed
  shift h := high_arcs _ (mem_arcs_of_leads (.inl h))
  reduce {s a rule r p target} h known hp goes := by
    rw [goto?_eq] at goes
    have hall :=
      high_reductions _ (mem_reductions h) r ((rule?_eq rule).symm.trans known) p hp
    rw [goes, Option.all_some, decide_eq_true_eq] at hall
    exact hall

/-! ### Every document ends -/

theorem endsLast : TokenStream.EndsLast tables := by
  refine ⟨by decide, fun st hst => ?_⟩
  have hstates : ∀ st ∈ states, st.accept ≠ some eof := by decide
  exact hstates st (List.mem_toArray.1 hst)

/-- The tables have an engine of either strategy. -/
theorem exists_start (strategy : Strategy) (showHidden : Bool) (source : String) :
    ∃ e, Engine.start tables strategy showHidden source = .ok e := by
  cases strategy <;> exact ⟨_, rfl⟩

/-- No document is given up. -/
theorem not_givesUp_of_reachable {e : Engine} (h : Engine.Reachable tables e) (showHidden : Bool) :
    ¬ e.machine.GivesUp tables showHidden := by
  have hb := belongs_of_reachable h
  cases hm : e.machine with
  | predictive table m => exact id
  | shiftReduce table m =>
    rw [hm] at hb
    obtain ⟨rfl, path⟩ := hb
    exact ShiftReduce.not_givesUp closed path

/-- The effort still to be made on a document. -/
def effort : Machine → Nat
  | .predictive _ m => Predictive.effort tables prediction rank 3 3 m.input m.stack
  | .shiftReduce _ m => ShiftReduce.effort high 8 m

/-- A machine of this language whose input ends with the empty end-of-stream token. -/
structure Sound (machine : Machine) : Prop where
  belongs : Belongs machine
  last_symbol : machine.input.last.symbol = tables.endOfStream
  last_text : machine.input.last.text = ""

theorem sound_of_reachable {e : Engine} (h : Engine.Reachable tables e) : Sound e.machine :=
  ⟨belongs_of_reachable h, (h.last endsLast).1, (h.last endsLast).2⟩

theorem sound_step (showHidden : Bool) {machine : Machine} (h : Sound machine) :
    Sound (machine.step tables showHidden).2 := by
  obtain ⟨ts, hpass, -⟩ := Machine.passes_step (t := tables) showHidden h.last_text
  exact ⟨belongs_step showHidden h.belongs, hpass.2 ▸ h.last_symbol, hpass.2 ▸ h.last_text⟩

theorem effort_step (showHidden : Bool) {machine : Machine} (h : Sound machine)
    (hmore : (machine.step tables showHidden).1 ≠ .endDocument) :
    effort (machine.step tables showHidden).2 < effort machine := by
  cases machine with
  | predictive table m =>
    obtain rfl : table = prediction := h.belongs
    exact Predictive.effort_step ranked h.last_symbol hmore
  | shiftReduce table m =>
    obtain ⟨rfl, path⟩ := h.belongs
    exact ShiftReduce.effort_step weighed (by omega) h.last_symbol path hmore

theorem high_le (s : StateId) : high s ≤ 5 := by
  have hall : ∀ n ∈ [2, 0, 2, 4, 3, 5, 5, 5, 5, 5, 2, 0, 2, 0, 2, 0, 0, 2, 3, 3, 2], n ≤ 5 := by
    decide
  rw [high, List.getD_eq_getElem?_getD]
  cases hs : [2, 0, 2, 4, 3, 5, 5, 5, 5, 5, 2, 0, 2, 0, 2, 0, 0, 2, 3, 3, 2][s.toNat]? with
  | none => exact Nat.zero_le 5
  | some n => exact hall n (List.mem_of_getElem? hs)

/-- The limit of a run leaves room for the effort. -/
theorem effort_lt_limit (e : Engine) : effort e.machine < e.limit := by
  rw [Engine.limit]
  cases e.machine with
  | predictive table m =>
    have hweight := Predictive.weight_le m.stack
    have hlead := Predictive.lead_le ranked m.input.current.symbol m.stack
    simp only [effort, Predictive.effort, Machine.input, Machine.depth]
    omega
  | shiftReduce table m =>
    have hweight : ShiftReduce.weight high m.states ≤ 5 + m.states.length := by
      cases hs : m.states with
      | nil => exact Nat.zero_le _
      | cons s below =>
        have hhigh := high_le s
        simp only [ShiftReduce.weight, List.length_cons]
        omega
    have hphase : ShiftReduce.phaseWeight m.phase ≤ 2 := by
      cases m.phase <;> simp [ShiftReduce.phaseWeight]
    simp only [effort, ShiftReduce.effort, Machine.input, Machine.depth]
    omega

/-- Reading comes to the end of the document before the limit of a run. -/
theorem endsAfter_of_reachable {e : Engine} (h : Engine.Reachable tables e) :
    ∃ n, Engine.EndsAfter tables n e ∧ n < e.limit := by
  obtain ⟨es, machine, hes, hend, hlast, hlen⟩ :=
    Emits.ends Sound effort (fun _ => sound_step e.showHidden)
      (fun _ => effort_step e.showHidden) e.machine (sound_of_reachable h)
  exact ⟨es.length, Engine.endsAfter_of_emits hes hend hlast,
    Nat.lt_of_le_of_lt hlen (effort_lt_limit e)⟩

/-- Every document is read to its end. -/
theorem ended_parse {e : Engine} (h : Engine.Reachable tables e) (shape : Shape) :
    (e.parse tables shape).2.ended = true := by
  obtain ⟨n, hn, hlimit⟩ := endsAfter_of_reachable h
  rw [Engine.parse, Engine.run_eq hn hlimit]
  exact hn.1

/-! ### Documents without a tree -/

section Nothing

variable {showHidden : Bool} {input : TokenStream}

/-- Without a token to show the predictive engine opens an empty document and closes it. -/
theorem emits_predictive (hlast : input.last.symbol = eof)
    (hnone : input.shown tables showHidden = []) :
    ∃ m, Emits (Predictive.step tables prediction showHidden) (.start tables input)
      [.nonTerminal ⟨1⟩, .endNonTerminal ⟨1⟩] m ∧
        (m.step tables prediction showHidden).1 = .endDocument := by
  have hrule : prediction.get? config input.last.symbol = some ⟨1⟩ := by
    rw [hlast, get?_eq]
    decide
  have hend : (⟨[], input.last⟩ : TokenStream).nextHidden tables showHidden =
      (none, ⟨[], input.last⟩) := TokenStream.nextHidden_of_shown rfl
  refine ⟨⟨⟨[], input.last⟩, [], false⟩,
    .cons (Predictive.step_expand rfl (TokenStream.nextHidden_of_shown hnone) hrule) ?_, ?_⟩
  · exact .single Predictive.step_close
  · rw [Predictive.step_finish hend rfl]

/-- Without a token to show the shift-reduce engine reduces to an empty document and accepts it. -/
theorem emits_shiftReduce (hlast : input.last.symbol = eof)
    (hnone : input.shown tables showHidden = []) :
    ∃ m, Emits (ShiftReduce.step tables shiftReduce showHidden) (.start shiftReduce input)
      [.reduce ⟨1⟩, .accept] m ∧ (m.step tables shiftReduce showHidden).1 = .endDocument := by
  have hreduce : shiftReduce.action? 0 input.last.symbol = some (.reduce ⟨1⟩) := by
    rw [hlast, action?_eq]
    decide
  have haccept : shiftReduce.action? 1 input.last.symbol = some .accept := by
    rw [hlast, action?_eq]
    decide
  have hgoto : shiftReduce.goto? 0 config = some 1 := by
    rw [goto?_eq]
    decide
  have hend : (⟨[], input.last⟩ : TokenStream).nextHidden tables showHidden =
      (none, ⟨[], input.last⟩) := TokenStream.nextHidden_of_shown rfl
  refine ⟨⟨⟨[], input.last⟩, [1, 0], .accepted⟩, .cons (ShiftReduce.step_reduce
    (TokenStream.nextHidden_of_shown hnone) hreduce (rule?_eq _) rfl hgoto) ?_, rfl⟩
  exact .single (ShiftReduce.step_accept hend haccept rfl)

end Nothing

/-- Without a token to show there is no tree. -/
theorem parse_eq_none {strategy : Strategy} {showHidden : Bool} {source : String} {e : Engine}
    (h : Engine.start tables strategy showHidden source = .ok e)
    (hnone : (TokenStream.ofSource tables source).shown tables showHidden = []) (shape : Shape) :
    (e.parse tables shape).1 = none := by
  have hlast := (TokenStream.symbol_ofScanner (t := tables) (.ofSource source)).1
  obtain ⟨es, machine, hes, hmore, hend, hlen, hbuild⟩ : ∃ es machine,
      Emits (Machine.step tables e.showHidden) e.machine es machine ∧ .endDocument ∉ es ∧
        (machine.step tables e.showHidden).1 = .endDocument ∧ es.length = 2 ∧
        Builder.build tables shape es = none := by
    cases strategy with
    | predictive =>
      cases h
      obtain ⟨m, hm, hend⟩ := emits_predictive hlast hnone
      refine ⟨_, .predictive prediction m, hm.map (fun _ => rfl), by simp, hend, rfl, ?_⟩
      rcases shape with ⟨_ | _, _ | _⟩ <;> rfl
    | shiftReduce =>
      cases h
      obtain ⟨m, hm, hend⟩ := emits_shiftReduce hlast hnone
      refine ⟨_, .shiftReduce shiftReduce m, hm.map (fun _ => rfl), by simp, hend, rfl, ?_⟩
      rcases shape with ⟨_ | _, _ | _⟩ <;> rfl
  have hroom : es.length < e.limit := by
    rw [hlen, Engine.limit]
    omega
  rw [Engine.parse, Engine.run_eq (Engine.endsAfter_of_emits hes hmore hend) hroom,
    (Engine.reads_of_emits hes).1]
  exact hbuild

theorem value?_of_leafOf {shape : Shape} {ev : Event} (h : Builder.leafOf tables shape ev = []) :
    ev.value? = none := by
  cases ev <;> first | rfl | cases h

/-- A document without a tree has no token to show. -/
theorem shown_of_parse {strategy : Strategy} {showHidden : Bool} {source : String} {e : Engine}
    (h : Engine.start tables strategy showHidden source = .ok e) {shape : Shape} {n : Nat}
    (hn : Engine.EndsAfter tables n e)
    (hnone : Builder.build tables shape (e.events tables n) = none) :
    (TokenStream.ofSource tables source).shown tables showHidden = [] := by
  have hreach := Engine.Reachable.start h
  obtain ⟨hinput, hshow, hsettled⟩ := Engine.start_eq h
  -- no event up to the end carries text, so nothing but unseen hidden tokens was passed
  have hquiet : ∀ ev ∈ e.events tables (n + 1), ev.value? = none := by
    rw [Engine.events_succ]
    intro ev hev
    rcases List.mem_append.1 hev with hev | hev
    · have hleaves := @Builder.leavesOf_build tables shape (e.events tables n)
      rw [hnone] at hleaves
      exact value?_of_leafOf (List.flatMap_eq_nil_iff.1 hleaves.symm ev hev)
    · rw [List.mem_singleton.1 hev, of_decide_eq_true hn.1]
      rfl
  have hgives : ∀ k < n, ¬ (e.reads tables k).machine.GivesUp tables
      (e.reads tables k).showHidden :=
    fun k _ => not_givesUp_of_reachable (hreach.reads k) _
  have hover := Engine.ahead_of_ended hsettled hgives hn.1
  obtain ⟨ts, hpass, hsilent, -⟩ := Engine.passes_reads (hreach.last endsLast).2 (n + 1)
  obtain ⟨hhidden, hnil⟩ := hsilent hquiet
  have hall := hpass.1
  rw [hover, List.append_nil, hinput] at hall
  rw [TokenStream.shown, hall, ← hshow]
  cases hv : e.showHidden with
  | true => rw [hnil hv]; rfl
  | false => simpa using hhidden

/-- Every document ends: an engine, fresh or used, reports the end after some reads, and from then
on reads change nothing, so a tree builder reads to the end. Parsing gives a tree unless there is no
token to show. -/
theorem document_ends :
    (∀ e, Engine.Reachable tables e → ∃ n, Engine.EndsAfter tables n e ∧
      (∀ k, e.reads tables (n + 1 + k) = e.reads tables (n + 1)) ∧
      ∀ b : TreeBuilder, b.build tables e =
        (Builder.build tables b.shape (e.events tables n), { b with state := .done },
          e.reads tables (n + 1))) ∧
    ∀ (strategy : Strategy) (options : ParseOptions) (source : String),
      ∃ tree, parse tables strategy options source = .ok tree ∧
        (tree = none ↔
          (TokenStream.ofSource tables source).shown tables options.showHidden = []) := by
  constructor
  · intro e h
    obtain ⟨n, hn, hlimit⟩ := endsAfter_of_reachable h
    refine ⟨n, hn, Engine.reads_of_ended hn.1, fun b => ?_⟩
    rw [TreeBuilder.build, Engine.parse, Engine.run_eq hn hlimit]
  · intro strategy options source
    obtain ⟨e, he⟩ := exists_start strategy options.showHidden source
    obtain ⟨n, hn, hlimit⟩ := endsAfter_of_reachable (.start he)
    refine ⟨(e.parse tables options.shape).1, by rw [parse, he]; rfl, ?_, ?_⟩
    · intro hnone
      rw [Engine.parse, Engine.run_eq hn hlimit] at hnone
      exact shown_of_parse he hn hnone
    · intro hnone
      exact parse_eq_none he hnone options.shape

end Script

end TableParser
