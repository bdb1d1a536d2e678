import TableParser.Engine.Basic
import TableParser.Proofs.Token.Passing
/-!
What one step of an engine can do.

`Predictive.Moves` and `ShiftReduce.Moves` list the kinds of steps, each with the condition under
which it is taken, the event it reports and the state it leaves. Every step is one of these
(`moves_step`), so a fact about all steps is a case analysis over a handful of kinds.
-/

namespace TableParser

namespace Predictive

/-- The steps of the predictive engine. Where a step looks at the input, `input` is what is left
after the hidden tokens at the front. -/
inductive Moves (t : Tables) (table : PredictionTable) (showHidden : Bool) (m : Predictive) :
    Event → Predictive → Prop where
  /-- The document is over. -/
  | rest (done : m.finished = true) : Moves t table showHidden m .endDocument m
  /-- A complete rule is closed. -/
  | close {rule : RuleId} {below : List Pending} (running : m.finished = false)
      (top : m.stack = .close rule :: below) :
      Moves t table showHidden m (.endNonTerminal rule) { m with stack := below }
  /-- A hidden token is shown. -/
  | hidden {tok : Token} {input : TokenStream} (running : m.finished = false)
      (top : ∀ rule below, m.stack ≠ .close rule :: below)
      (next : m.input.nextHidden t showHidden = (some tok, input)) :
      Moves t table showHidden m (.terminal tok) { m with input }
  /-- A non-terminal is expanded. -/
  | expand {s : SymbolId} {below : List Pending} {input : TokenStream} {rule : RuleId}
      (running : m.finished = false) (top : m.stack = .symbol s :: below)
      (next : m.input.nextHidden t showHidden = (none, input)) (kind : t.isNonTerminal s = true)
      (predicted : table.get? s input.current.symbol = some rule) :
      Moves t table showHidden m (.nonTerminal rule)
        { m with input, stack := body t rule ++ .close rule :: below }
  /-- A terminal is matched. -/
  | take {s : SymbolId} {below : List Pending} {input : TokenStream}
      (running : m.finished = false) (top : m.stack = .symbol s :: below)
      (next : m.input.nextHidden t showHidden = (none, input)) (kind : t.isNonTerminal s = false)
      (same : input.current.symbol = s) :
      Moves t table showHidden m (.terminal input.current)
        { m with input := input.advance, stack := below }
  /-- What is on top cannot go on with the token at hand, so input is passed over. -/
  | skip {s : SymbolId} {below : List Pending} {input : TokenStream} {expected : List SymbolId}
      {sync : SymbolId → Bool} (running : m.finished = false) (top : m.stack = .symbol s :: below)
      (next : m.input.nextHidden t showHidden = (none, input))
      (syncs : ∀ a, sync a = true ↔
        if t.isNonTerminal s then (table.get? s a).isSome = true else a = s)
      (stuck : sync input.current.symbol = false) :
      Moves t table showHidden m (.error (input.recoverError t expected sync).1)
        { m with
          input := (input.recover t sync).2
          stack := if sync (input.recover t sync).2.current.symbol then m.stack else below }
  /-- Nothing is to come but input is left. -/
  | leftOver {input : TokenStream} (running : m.finished = false) (top : m.stack = [])
      (next : m.input.nextHidden t showHidden = (none, input)) (more : input.atEnd = false) :
      Moves t table showHidden m
        (.error (input.recoverError t [t.endOfStream] fun _ => false).1)
        { m with input := (input.recover t fun _ => false).2 }
  /-- The document ends. -/
  | finish {input : TokenStream} (running : m.finished = false) (top : m.stack = [])
      (next : m.input.nextHidden t showHidden = (none, input)) (empty : input.atEnd = true) :
      Moves t table showHidden m .endDocument { m with input, finished := true }

/-- Every step is one of the listed kinds. -/
theorem moves_step (t : Tables) (table : PredictionTable) (showHidden : Bool) (m : Predictive) :
    Moves t table showHidden m (m.step t table showHidden).1 (m.step t table showHidden).2 := by
  obtain ⟨input₀, stack, finished⟩ := m
  cases finished with
  | true => exact .rest rfl
  | false =>
    rw [step, if_neg Bool.false_ne_true]
    match stack with
    | .close rule :: below => exact .close rfl rfl
    | [] =>
      dsimp only
      cases hn : input₀.nextHidden t showHidden with
      | mk tok? input =>
        cases tok? with
        | some tok => exact .hidden rfl (by simp) hn
        | none =>
          dsimp only
          rw [finish]
          cases ha : input.atEnd with
          | true => exact .finish rfl rfl hn ha
          | false => exact .leftOver rfl rfl hn ha
    | .symbol s :: below =>
      dsimp only
      cases hn : input₀.nextHidden t showHidden with
      | mk tok? input =>
        cases tok? with
        | some tok => exact .hidden rfl (by simp) hn
        | none =>
          dsimp only
          cases hk : t.isNonTerminal s with
          | true =>
            rw [if_pos rfl, expand]
            cases hp : table.get? s input.current.symbol with
            | some rule => exact .expand rfl rfl hn hk hp
            | none => exact .skip rfl rfl hn (by simp [hk]) (by simp [hp])
          | false =>
            rw [if_neg Bool.false_ne_true, matchTerminal]
            by_cases hc : input.current.symbol = s
            · rw [if_pos hc]
              exact .take rfl rfl hn hk hc
            · rw [if_neg hc]
              exact .skip rfl rfl hn (by simp [hk]) (by simpa using hc)

theorem exists_moves (t : Tables) (table : PredictionTable) (showHidden : Bool) (m : Predictive) :
    ∃ e m', m.step t table showHidden = (e, m') ∧ Moves t table showHidden m e m' :=
  ⟨_, _, rfl, moves_step t table showHidden m⟩

/-- The end of the stream stays where it is. -/
theorem last_step (t : Tables) (table : PredictionTable) (showHidden : Bool) (m : Predictive) :
    (m.step t table showHidden).2.input.last = m.input.last := by
  obtain ⟨e, m', hstep, hmoves⟩ := exists_moves t table showHidden m
  rw [hstep]
  cases hmoves with
  | rest | close => rfl
  | hidden _ _ next =>
    obtain ⟨-, -, hpass⟩ := TokenStream.nextHidden_some next
    exact hpass.2
  | expand _ _ next | take _ _ next | finish _ _ next =>
    obtain ⟨_, hpass, -⟩ := TokenStream.nextHidden_none next
    exact hpass.2
  | @skip _ _ input _ sync _ _ next =>
    obtain ⟨_, hpass, -⟩ := TokenStream.nextHidden_none next
    exact (input.recover_passes sync).2.trans hpass.2
  | @leftOver input _ _ next =>
    obtain ⟨_, hpass, -⟩ := TokenStream.nextHidden_none next
    exact (input.recover_passes _).2.trans hpass.2

/-- A document ends only when nothing is to come. -/
theorem stack_eq_nil {t : Tables} {table : PredictionTable} {showHidden : Bool} {m : Predictive}
    (hfinished : m.finished = true → m.stack = [])
    (hend : (m.step t table showHidden).1 = .endDocument) :
    m.stack = [] ∧ (m.step t table showHidden).2.stack = [] := by
  obtain ⟨e, m', hstep, hmoves⟩ := exists_moves t table showHidden m
  rw [hstep] at hend ⊢
  cases hmoves with
  | rest done => exact ⟨hfinished done, hfinished done⟩
  | finish _ top => exact ⟨top, top⟩
  | close | hidden | expand | take | skip | leftOver => cases hend

theorem body_of_rule {t : Tables} {rule : RuleId} {r : Rule} (known : t.rule? rule = some r) :
    body t rule = r.rhs.map .symbol := by
  rw [body, known, Option.elim_some]

/-! #### Steps without an error -/

variable {t : Tables} {table : PredictionTable} {showHidden : Bool} {input input' : TokenStream}
  {stack : List Pending}

theorem step_close {rule : RuleId} : step t table showHidden ⟨input, .close rule :: stack, false⟩ =
    (.endNonTerminal rule, ⟨input, stack, false⟩) := rfl

theorem step_hidden {tok : Token} (top : ∀ rule below, stack ≠ .close rule :: below)
    (next : input.nextHidden t showHidden = (some tok, input')) :
    step t table showHidden ⟨input, stack, false⟩ = (.terminal tok, ⟨input', stack, false⟩) := by
  rw [step, if_neg Bool.false_ne_true]
  match stack with
  | .close rule :: below => exact absurd rfl (top rule below)
  | [] | .symbol s :: below => simp only [next]

theorem step_expand {s : SymbolId} {rule : RuleId} (kind : t.isNonTerminal s = true)
    (next : input.nextHidden t showHidden = (none, input'))
    (predicted : table.get? s input'.current.symbol = some rule) :
    step t table showHidden ⟨input, .symbol s :: stack, false⟩ =
      (.nonTerminal rule, ⟨input', body t rule ++ .close rule :: stack, false⟩) := by
  rw [step, if_neg Bool.false_ne_true]
  simp only [next, kind, if_true, expand, predicted, List.tail_cons]

theorem step_take {s : SymbolId} (kind : t.isNonTerminal s = false)
    (next : input.nextHidden t showHidden = (none, input')) (same : input'.current.symbol = s) :
    step t table showHidden ⟨input, .symbol s :: stack, false⟩ =
      (.terminal input'.current, ⟨input'.advance, stack, false⟩) := by
  rw [step, if_neg Bool.false_ne_true]
  simp only [next, kind, Bool.false_eq_true, if_false, matchTerminal, same, if_true, List.tail_cons]

theorem step_finish (next : input.nextHidden t showHidden = (none, input'))
    (empty : input'.ahead = []) :
    step t table showHidden ⟨input, [], false⟩ = (.endDocument, ⟨input', [], true⟩) := by
  rw [step, if_neg Bool.false_ne_true]
  simp only [next, finish, TokenStream.atEnd_iff.2 empty, if_true]

end Predictive

namespace ShiftReduce

/-- The steps of the shift-reduce engine. Where a step looks at the input, `input` is what is left
after the hidden tokens at the front. -/
inductive Moves (t : Tables) (table : ShiftReduceTable) (showHidden : Bool) (m : ShiftReduce) :
    Event → ShiftReduce → Prop where
  /-- The document is over. -/
  | rest (halted : m.phase ≠ .running) :
      Moves t table showHidden m .endDocument { m with phase := .done }
  /-- A hidden token is shown. -/
  | hidden {tok : Token} {input : TokenStream} (running : m.phase = .running)
      (next : m.input.nextHidden t showHidden = (some tok, input)) :
      Moves t table showHidden m (.shift tok) { m with input }
  /-- A token is shifted. -/
  | shift {input : TokenStream} {target : StateId} (running : m.phase = .running)
      (next : m.input.nextHidden t showHidden = (none, input))
      (action : table.action? (m.top table) input.current.symbol = some (.shift target)) :
      Moves t table showHidden m (.shift input.current)
        { m with states := target :: m.states, input := input.advance }
  /-- The right side of a rule is replaced by its left side. -/
  | reduce {input : TokenStream} {rule : RuleId} {r : Rule} {s target : StateId}
      {below : List StateId} (running : m.phase = .running)
      (next : m.input.nextHidden t showHidden = (none, input))
      (action : table.action? (m.top table) input.current.symbol = some (.reduce rule))
      (known : t.rule? rule = some r) (exposed : m.states.drop r.rhs.length = s :: below)
      (goes : table.goto? s r.lhs = some target) :
      Moves t table showHidden m (.reduce rule) { m with input, states := target :: s :: below }
  /-- The table has no way on after a reduction: the document is given up. -/
  | giveUp {input : TokenStream} {rule : RuleId} (running : m.phase = .running)
      (next : m.input.nextHidden t showHidden = (none, input))
      (action : table.action? (m.top table) input.current.symbol = some (.reduce rule))
      (hole : ∀ r, t.rule? rule = some r →
        (m.states.drop r.rhs.length).head?.bind (fun s => table.goto? s r.lhs) = none) :
      Moves t table showHidden m (.error ⟨"", input.current.position, []⟩)
        { m with
          input
          states := m.states.drop ((t.rule? rule).elim 0 fun r => r.rhs.length)
          phase := .done }
  /-- The input is a sentence. -/
  | accept {input : TokenStream} (running : m.phase = .running)
      (next : m.input.nextHidden t showHidden = (none, input))
      (action : table.action? (m.top table) input.current.symbol = some .accept)
      (empty : input.atEnd = true) :
      Moves t table showHidden m .accept { m with input, phase := .accepted }
  /-- The state on top can do nothing with the token at hand, so input is passed over. -/
  | skip {input : TokenStream} {expected : List SymbolId} {sync : SymbolId → Bool}
      (running : m.phase = .running)
      (next : m.input.nextHidden t showHidden = (none, input))
      (stuck : table.action? (m.top table) input.current.symbol = none ∨
        (table.action? (m.top table) input.current.symbol = some .accept ∧ input.atEnd = false))
      (syncs : ∀ a, sync a = (table.action? (m.top table) a).isSome) :
      Moves t table showHidden m (.error (input.recoverError t expected sync).1)
        { m with
          input := (input.recover t sync).2
          phase := if (input.recover t sync).2.atEnd &&
            (table.action? (m.top table) t.endOfStream).isNone then .done else .running }

/-- A reduction succeeds, or the document is given up. -/
theorem moves_reduce {t : Tables} {table : ShiftReduceTable} {showHidden : Bool} {m : ShiftReduce}
    {input : TokenStream} {rule : RuleId} (running : m.phase = .running)
    (next : m.input.nextHidden t showHidden = (none, input))
    (action : table.action? (m.top table) input.current.symbol = some (.reduce rule)) :
    Moves t table showHidden m (ShiftReduce.reduce t table rule { m with input }).1
      (ShiftReduce.reduce t table rule { m with input }).2 := by
  rw [ShiftReduce.reduce]
  cases hr : t.rule? rule with
  | none =>
    have := Moves.giveUp running next action (by simp [hr])
    rwa [hr] at this
  | some r =>
    dsimp only
    cases hb : (m.states.drop r.rhs.length).head?.bind fun s => table.goto? s r.lhs with
    | none =>
      have := Moves.giveUp running next action (by rw [hr]; rintro r' ⟨⟩; exact hb)
      rwa [hr] at this
    | some target =>
      obtain ⟨s, hs, hg⟩ := Option.bind_eq_some_iff.1 hb
      obtain ⟨below, hd⟩ := List.head?_eq_some_iff.1 hs
      rw [hd]
      exact .reduce running next action hr hd hg

/-- Every step is one of the listed kinds. -/
theorem moves_step (t : Tables) (table : ShiftReduceTable) (showHidden : Bool) (m : ShiftReduce) :
    Moves t table showHidden m (m.step t table showHidden).1 (m.step t table showHidden).2 := by
  obtain ⟨input₀, states, phase⟩ := m
  cases phase with
  | accepted => exact .rest (by simp)
  | done => exact .rest (by simp)
  | running =>
    rw [step]
    dsimp only
    cases hn : input₀.nextHidden t showHidden with
    | mk tok? input =>
      cases tok? with
      | some tok => exact .hidden rfl hn
      | none =>
        dsimp only
        cases ha : table.action? (top table ⟨input, states, .running⟩) input.current.symbol with
        | none => exact .skip rfl hn (.inl ha) (fun _ => rfl)
        | some action =>
          cases action with
          | shift target => exact .shift rfl hn ha
          | reduce rule => exact moves_reduce rfl hn ha
          | accept =>
            cases he : input.atEnd with
            | true => exact .accept rfl hn ha he
            | false => exact .skip rfl hn (.inr ⟨ha, he⟩) (fun _ => rfl)

theorem exists_moves (t : Tables) (table : ShiftReduceTable) (showHidden : Bool) (m : ShiftReduce) :
    ∃ e m', m.step t table showHidden = (e, m') ∧ Moves t table showHidden m e m' :=
  ⟨_, _, rfl, moves_step t table showHidden m⟩

/-- The end of the stream stays where it is. -/
theorem last_step (t : Tables) (table : ShiftReduceTable) (showHidden : Bool) (m : ShiftReduce) :
    (m.step t table showHidden).2.input.last = m.input.last := by
  obtain ⟨e, m', hstep, hmoves⟩ := exists_moves t table showHidden m
  rw [hstep]
  cases hmoves with
  | rest => rfl
  | hidden _ next =>
    obtain ⟨-, -, hpass⟩ := TokenStream.nextHidden_some next
    exact hpass.2
  | shift _ next | reduce _ next | giveUp _ next | accept _ next =>
    obtain ⟨_, hpass, -⟩ := TokenStream.nextHidden_none next
    exact hpass.2
  | @skip input _ sync _ next =>
    obtain ⟨_, hpass, -⟩ := TokenStream.nextHidden_none next
    exact (input.recover_passes sync).2.trans hpass.2

/-! #### Steps without an error -/

variable {t : Tables} {table : ShiftReduceTable} {showHidden : Bool} {input input' : TokenStream}
  {s : StateId} {below : List StateId}

theorem step_hidden {tok : Token} (next : input.nextHidden t showHidden = (some tok, input')) :
    step t table showHidden ⟨input, s :: below, .running⟩ =
      (.shift tok, ⟨input', s :: below, .running⟩) := by
  rw [step]
  simp only [next]

theorem step_shift {target : StateId} (next : input.nextHidden t showHidden = (none, input'))
    (action : table.action? s input'.current.symbol = some (.shift target)) :
    step t table showHidden ⟨input, s :: below, .running⟩ =
      (.shift input'.current, ⟨input'.advance, target :: s :: below, .running⟩) := by
  rw [step]
  simp only [next, top, List.headD_cons, action]

theorem step_reduce {rule : RuleId} {r : Rule} {s₀ target : StateId} {rest : List StateId}
    (next : input.nextHidden t showHidden = (none, input'))
    (action : table.action? s input'.current.symbol = some (.reduce rule))
    (known : t.rule? rule = some r) (exposed : (s :: below).drop r.rhs.length = s₀ :: rest)
    (goes : table.goto? s₀ r.lhs = some target) :
    step t table showHidden ⟨input, s :: below, .running⟩ =
      (.reduce rule, ⟨input', target :: s₀ :: rest, .running⟩) := by
  rw [step]
  simp only [next, top, List.headD_cons, action, reduce, known, exposed, List.head?_cons,
    Option.bind_some, goes]

theorem step_accept (next : input.nextHidden t showHidden = (none, input'))
    (action : table.action? s input'.current.symbol = some .accept) (empty : input'.ahead = []) :
    step t table showHidden ⟨input, s :: below, .running⟩ =
      (.accept, ⟨input', s :: below, .accepted⟩) := by
  rw [step]
  simp only [next, top, List.headD_cons, action, TokenStream.atEnd_iff.2 empty, if_true]

end ShiftReduce

end TableParser
