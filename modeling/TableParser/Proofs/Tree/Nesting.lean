import TableParser.Proofs.Script.Termination
/-!
Rules are closed in the order in which they were opened.

A predictive engine opens a rule when it expands a non-terminal, and leaves a mark on its stack
below the right side. It closes the rule when it comes to the mark. Recovery passes over input and
drops symbols, but never a mark. So the events are brackets that fit, with tokens and errors
anywhere between them, and the rules that are open are those of the marks:

    event               open                stack
    nonTerminal 0       0                   Statement Statements ⟩0
    nonTerminal 4       4 0                 Scalar StatementTail ⟩4 Statements ⟩0
    error "= ="         4 0                 StatementTail ⟩4 Statements ⟩0
    …
    endNonTerminal 4    0                   Statements ⟩0

A builder that takes in these events has a frame for each open rule. It never comes to the end of a
rule without a frame, and it has none left at the end of the document.

Main statement: `Engine.rules_nest`.
-/

namespace TableParser

/-- Whether an event opens or closes a rule. -/
def Event.isBracket : Event → Bool
  | .nonTerminal _ | .endNonTerminal _ => true
  | .initial | .terminal _ | .shift _ | .reduce _ | .accept | .error _ | .endDocument => false

/-! ### Brackets -/

/-- Every rule that is opened is closed, after all that was opened inside it, and no other rule is
closed. -/
inductive Balanced : List Event → Prop where
  | nil : Balanced []
  | plain {ev : Event} {later : List Event} (other : ev.isBracket = false) (rest : Balanced later) :
      Balanced (ev :: later)
  | rule {rule : RuleId} {inside later : List Event} (inner : Balanced inside)
      (rest : Balanced later) :
      Balanced (.nonTerminal rule :: (inside ++ .endNonTerminal rule :: later))

/-- The events are balanced but for rules that are still open, which are listed with the innermost
first. -/
inductive Nested : List Event → List RuleId → Prop where
  | balanced {events : List Event} (h : Balanced events) : Nested events []
  | opened {before inside : List Event} {rule : RuleId} {outer : List RuleId}
      (outside : Nested before outer) (inner : Balanced inside) :
      Nested (before ++ .nonTerminal rule :: inside) (rule :: outer)

variable {events before later : List Event} {ev : Event} {rule : RuleId} {outer : List RuleId}

namespace Balanced

theorem append (h : Balanced events) (h' : Balanced later) : Balanced (events ++ later) := by
  induction h with
  | nil => exact h'
  | plain other _ ih => exact .plain other ih
  | rule inner _ _ ih =>
    rw [List.cons_append, List.append_assoc, List.cons_append]
    exact .rule inner ih

theorem single (other : ev.isBracket = false) : Balanced [ev] := .plain other .nil

end Balanced

namespace Nested

/-- What is balanced opens no rule for good and closes none that was open. -/
theorem append (h : Nested before outer) (h' : Balanced events) :
    Nested (before ++ events) outer := by
  cases h with
  | balanced h => exact .balanced (h.append h')
  | opened outside inner =>
    rw [List.append_assoc, List.cons_append]
    exact .opened outside (inner.append h')

theorem enter (h : Nested before outer) (rule : RuleId) :
    Nested (before ++ [.nonTerminal rule]) (rule :: outer) :=
  .opened h .nil

/-- A rule that is closed is the innermost open one. -/
theorem leave (h : Nested before (rule :: outer)) :
    Nested (before ++ [.endNonTerminal rule]) outer := by
  cases h with
  | opened outside inner =>
    rw [List.append_assoc, List.cons_append]
    exact outside.append (.rule inner .nil)

end Nested

/-! ### Frames -/

namespace Builder

variable {t : Tables} {shape : Shape}

/-- The end of a rule takes the innermost frame. -/
theorem frames_leave {b : Builder} {frame : OpenRule} {frames : List OpenRule}
    (h : b.frames = frame :: frames) (rule : RuleId) :
    (feed t shape b (.endNonTerminal rule)).frames = frames := by
  rw [feed, h]

/-- What is balanced leaves the frames as they were. -/
theorem frames_of_balanced (h : Balanced events) (b : Builder) :
    (events.foldl (feed t shape) b).frames = b.frames := by
  induction h generalizing b with
  | nil => rfl
  | @plain ev _ other _ ih =>
    rw [List.foldl_cons, ih]
    cases ev <;> first | rfl | cases other
  | @rule rule _ _ _ _ inner rest =>
    have hinside := inner (feed t shape b (.nonTerminal rule))
    rw [List.foldl_cons, List.foldl_append, List.foldl_cons, rest]
    exact frames_leave hinside rule

/-- The builder has a frame for each open rule. -/
theorem frames_of_nested (h : Nested events outer) :
    (events.foldl (feed t shape) {}).frames.map OpenRule.rule = outer := by
  induction h with
  | balanced h => rw [frames_of_balanced h]; rfl
  | opened _ inner ih =>
    rw [List.foldl_append, List.foldl_cons, frames_of_balanced inner, feed, List.map_cons, ih]

end Builder

/-! ### Steps -/

/-- The rule that a mark closes. -/
def Pending.closes? : Pending → Option RuleId
  | .symbol _ => none
  | .close rule => some rule

namespace Predictive

variable {t : Tables} {table : PredictionTable} {showHidden : Bool} {m : Predictive}

/-- The rules that the stack has marks for, the innermost first. -/
def openRules (m : Predictive) : List RuleId := m.stack.filterMap Pending.closes?

theorem openRules_eq (m : Predictive) : m.openRules = m.stack.filterMap Pending.closes? := rfl

/-- The right side of a rule has no marks. -/
theorem filterMap_body (t : Tables) (rule : RuleId) :
    (body t rule).filterMap Pending.closes? = [] := by
  rw [body]
  cases t.rule? rule <;> simp [List.filterMap_map, Function.comp_def, Pending.closes?]

/-- The events of a document leave those rules open that the stack has marks for, and nothing is to
come when the document is over. -/
structure Brackets (events : List Event) (m : Predictive) : Prop where
  nested : Nested events m.openRules
  finished : m.finished = true → m.stack = []

theorem brackets_start (t : Tables) (input : TokenStream) : Brackets [] (start t input) :=
  ⟨.balanced .nil, fun h => nomatch h⟩

/-- Every step leaves those rules open that the stack has marks for. -/
theorem brackets_step (h : Brackets events m) :
    Brackets (events ++ [(m.step t table showHidden).1]) (m.step t table showHidden).2 := by
  obtain ⟨e, m', hstep, hmoves⟩ := exists_moves t table showHidden m
  rw [hstep]
  have hnested := h.nested
  rw [openRules_eq] at hnested
  have hrunning : ∀ stack : List Pending, m.finished = false → m.finished = true → stack = [] := by
    intro stack hno hyes
    cases hno.symm.trans hyes
  cases hmoves with
  | rest | hidden => exact ⟨hnested.append (.single rfl), h.finished⟩
  | close running top =>
    rw [top] at hnested
    exact ⟨hnested.leave, hrunning _ running⟩
  | @expand s below _ rule running top =>
    rw [top] at hnested
    refine ⟨?_, hrunning _ running⟩
    rw [openRules_eq, List.filterMap_append, filterMap_body]
    exact hnested.enter rule
  | take running top =>
    rw [top] at hnested
    exact ⟨hnested.append (.single rfl), hrunning _ running⟩
  | skip running top =>
    refine ⟨?_, hrunning _ running⟩
    rw [openRules_eq]
    dsimp only
    -- the symbol on top may be dropped, but it is no mark
    split
    · exact hnested.append (.single rfl)
    · rw [top] at hnested
      exact hnested.append (.single rfl)
  | leftOver _ top | finish _ top => exact ⟨hnested.append (.single rfl), fun _ => top⟩

/-- The rule that is closed next is the innermost open one. -/
theorem exists_openRules (hend : (m.step t table showHidden).1 = .endNonTerminal rule) :
    ∃ outer, m.openRules = rule :: outer := by
  obtain ⟨e, m', hstep, hmoves⟩ := exists_moves t table showHidden m
  rw [hstep] at hend
  cases hmoves with
  | close _ top =>
    cases hend
    exact ⟨_, by rw [openRules, top]; rfl⟩
  | rest | hidden | expand | take | skip | leftOver | finish => cases hend

end Predictive

/-! ### Runs -/

namespace Engine

variable {t : Tables} {e : Engine} {table : PredictionTable} {m : Predictive}

/-- The events that an engine has reported since it was started or restarted. Hidden tokens may be
shown at one time and not at another. -/
inductive Since (t : Tables) : List Event → Engine → Prop where
  | start {strategy : Strategy} {showHidden : Bool} {source : String} {e : Engine}
      (h : Engine.start t strategy showHidden source = .ok e) : Since t [] e
  | restart (source : String) (e : Engine) : Since t [] (e.restart t source)
  | read {events : List Event} {e : Engine} (h : Since t events e) :
      Since t (events ++ [(e.read t).event]) (e.read t)
  | withHidden {events : List Event} {e : Engine} (on : Bool) (h : Since t events e) :
      Since t events (e.withHidden on)

theorem Since.reads (h : Since t [] e) (n : Nat) : Since t (e.events t n) (e.reads t n) := by
  induction n with
  | zero => exact h
  | succ n ih =>
    rw [events_succ, reads_succ]
    exact ih.read

theorem event_of_start {strategy : Strategy} {showHidden : Bool} {source : String}
    (h : Engine.start t strategy showHidden source = .ok e) : e.event = .initial := by
  rw [Engine.start] at h
  cases hstart : Machine.start t strategy (.ofSource t source) with
  | error => rw [hstart] at h; cases h
  | ok => rw [hstart] at h; cases h; rfl

/-- A predictive engine was one before the last read. -/
theorem exists_before (hm : (e.read t).machine = .predictive table m) :
    ∃ m', e.machine = .predictive table m' ∧
    (e.read t).event = (m'.step t table e.showHidden).1 ∧ m = (m'.step t table e.showHidden).2 := by
  rw [event_read, machine_read] at *
  cases hmachine : e.machine with
  | predictive table' m' =>
    rw [hmachine] at hm
    cases hm
    exact ⟨m', rfl, rfl, rfl⟩
  | shiftReduce table' m' =>
    rw [hmachine] at hm
    cases hm

/-- In a run the rules are open that the stack has marks for, and at its end nothing is to come. -/
theorem Since.brackets (h : Since t events e) (hm : e.machine = .predictive table m) :
    Predictive.Brackets events m ∧ (e.ended = true → m.stack = []) := by
  induction h generalizing m with
  | start h =>
    have hevent := event_of_start h
    rcases Machine.start_cases (machine_of_start h) with ⟨_, hmachine⟩ | ⟨_, hmachine⟩
    · cases hmachine.symm.trans hm
      exact ⟨Predictive.brackets_start t _, fun hend => by simp [ended, hevent] at hend⟩
    · cases hmachine.symm.trans hm
  | restart source e =>
    rw [Engine.restart] at hm ⊢
    cases hmachine : e.machine with
    | predictive table' m' =>
      rw [hmachine] at hm
      cases hm
      exact ⟨Predictive.brackets_start t _, fun hend => by simp [ended] at hend⟩
    | shiftReduce table' m' =>
      rw [hmachine] at hm
      cases hm
  | read _ ih =>
    obtain ⟨m', hbefore, hevent, rfl⟩ := exists_before hm
    obtain ⟨hbrackets, -⟩ := ih hbefore
    rw [hevent]
    refine ⟨Predictive.brackets_step hbrackets, fun hend =>
      (Predictive.stack_eq_nil hbrackets.finished ?_).2⟩
    rw [← hevent]
    exact of_decide_eq_true hend
  | withHidden _ _ ih => exact ih hm

/-- Whatever a predictive engine reads, and whatever errors it recovers from, the rules that it
opens and closes nest: a rule that is closed is the innermost open one, and the open ones are those
that its stack has marks for. So a builder has a frame for each open rule, with the innermost on top
when a rule is closed. At the end of the document none is open, and the tree is that of the row
alone. -/
theorem rules_nest (h : Since t events e) (hm : e.machine = .predictive table m) :
    Nested events m.openRules ∧
    (∀ shape, (events.foldl (Builder.feed t shape) {}).frames.map OpenRule.rule = m.openRules) ∧
    (∀ rule, (e.read t).event = .endNonTerminal rule → (∃ outer, m.openRules = rule :: outer) ∧
      ∀ shape, ∃ frame outer, (events.foldl (Builder.feed t shape) {}).frames = frame :: outer ∧
        frame.rule = rule) ∧
    (e.ended = true → m.openRules = [] ∧ Balanced events ∧ ∀ shape, Builder.build t shape events =
      Builder.finish t shape (events.foldl (Builder.feed t shape) {}).last
        (events.foldl (Builder.feed t shape) {}).nodes.toList) := by
  obtain ⟨⟨hnested, -⟩, hend⟩ := h.brackets hm
  have hframes : ∀ shape, (events.foldl (Builder.feed t shape) {}).frames.map OpenRule.rule =
      m.openRules :=
    fun shape => Builder.frames_of_nested hnested
  refine ⟨hnested, hframes, ?_, ?_⟩
  · intro rule hrule
    rw [event_read, hm] at hrule
    obtain ⟨outer, houter⟩ := Predictive.exists_openRules hrule
    refine ⟨⟨outer, houter⟩, fun shape => ?_⟩
    have hshape := hframes shape
    rw [houter, List.map_eq_cons_iff] at hshape
    obtain ⟨frame, outer', hframe, hinner, -⟩ := hshape
    exact ⟨frame, outer', hframe, hinner⟩
  · intro hended
    have hnone : m.openRules = [] := by rw [Predictive.openRules, hend hended]; rfl
    rw [hnone] at hnested hframes
    refine ⟨hnone, ?_, fun shape => ?_⟩
    · cases hnested with
      | balanced h => exact h
    · rw [Builder.build, List.map_eq_nil_iff.1 (hframes shape)]
      rfl

end Engine

namespace Script

/-- A document with errors is read into brackets that fit. -/
theorem rules_nest_broken : ∃ e n m, Engine.start tables .predictive true broken = .ok e ∧
    Engine.EndsAfter tables n e ∧ (e.reads tables (n + 1)).machine = .predictive prediction m ∧
    m.openRules = [] ∧ Balanced (e.events tables (n + 1)) := by
  obtain ⟨e, he, hmachine⟩ : ∃ e, Engine.start tables .predictive true broken = .ok e ∧
      e.machine = .predictive prediction (.start tables (.ofSource tables broken)) := ⟨_, rfl, rfl⟩
  obtain ⟨n, hn, -⟩ := endsAfter_of_reachable (.start he)
  obtain ⟨m, hm⟩ : ∃ m, (e.reads tables (n + 1)).machine = .predictive prediction m := by
    generalize n + 1 = k
    induction k with
    | zero => exact ⟨_, hmachine⟩
    | succ k ih =>
      obtain ⟨m, hm⟩ := ih
      exact ⟨_, (Engine.reads_predictive hm).2⟩
  obtain ⟨-, -, -, hend⟩ := Engine.rules_nest ((Engine.Since.start he).reads (n + 1)) hm
  obtain ⟨hopen, hbalanced, -⟩ := hend hn.1
  exact ⟨e, n, m, he, hn, hm, hopen, hbalanced⟩

end Script

end TableParser
