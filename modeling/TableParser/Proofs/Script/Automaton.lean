import TableParser.Grammar.Script
import TableParser.Proofs.Engine.Reading
import TableParser.Proofs.Engine.StackPath
/-!
The two tables of the settings language, as written.

The look-ups of the loaded tables are those of the written lists, so what has to be checked of the
tables is decided on the lists. The shift-reduce table is closed: along every way back from a state
that reduces lies the right side of the rule.

Main statement: `stack_isPath` (every engine there can be keeps its stack on a path of the
automaton, finds what it reduces, and gives no document up).
-/

namespace TableParser.Script

open ShiftReduceTable

/-! ### The written tables -/

/-- The LL(1) table. -/
def prediction : PredictionTable := .ofEntries 7 12 predictions

/-- The LALR(1) table. -/
def shiftReduce : ShiftReduceTable := .ofRows 7 12 0 stateRows

theorem get?_eq : prediction.get? = PredictionTable.written 7 12 predictions :=
  PredictionTable.get?_ofEntries 7 12 predictions

theorem action?_eq : shiftReduce.action? = writtenAction 7 12 stateRows :=
  action?_ofRows 7 12 0 stateRows

theorem goto?_eq : shiftReduce.goto? = writtenGoto 7 stateRows :=
  goto?_ofRows 7 12 0 stateRows

/-- The rule with a number. -/
def ruleAt (rule : RuleId) : Option Rule := rules[rule.index]?

theorem rule?_eq (rule : RuleId) : tables.rule? rule = ruleAt rule := List.getElem?_toArray

/-! ### Reductions -/

theorem safe_reductions : ∀ q ∈ reductions stateRows, ∃ r ∈ ruleAt q.2,
    SafeReduction 0 (writtenGoto 7 stateRows) (arcs stateRows) q.1 r := by
  decide

/-- Every reduction of the table finds its right side. -/
theorem closed : Closed tables shiftReduce (arcs stateRows) where
  arcs := mem_arcs_of_leads
  safe := by
    intro s a rule h
    obtain ⟨r, hr, safe⟩ := safe_reductions _ (mem_reductions h)
    refine ⟨r, (rule?_eq rule).trans hr, ?_⟩
    rw [goto?_eq]
    exact safe

/-! ### Engines -/

/-- A machine of this language: it has the table of its strategy, and its stack is a path. -/
def Belongs : Machine → Prop
  | .predictive table _ => table = prediction
  | .shiftReduce table m => table = shiftReduce ∧ table.IsPath m.states

theorem belongs_step (showHidden : Bool) {machine : Machine} (h : Belongs machine) :
    Belongs (machine.step tables showHidden).2 := by
  cases machine with
  | predictive table m => exact h
  | shiftReduce table m =>
    obtain ⟨rfl, path⟩ := h
    exact ⟨rfl, ShiftReduce.isPath_step closed path⟩

theorem belongs_of_reachable {e : Engine} (h : Engine.Reachable tables e) : Belongs e.machine := by
  induction h with
  | @start strategy _ _ _ h =>
    cases strategy with
    | predictive => cases h; rfl
    | shiftReduce => cases h; exact ⟨rfl, [], .start⟩
  | read _ ih => exact belongs_step _ ih
  | @restart e source _ ih =>
    rw [Engine.restart]
    cases hm : e.machine with
    | predictive table m =>
      rw [hm] at ih
      exact ih
    | shiftReduce table m =>
      rw [hm] at ih
      obtain ⟨rfl, -⟩ := ih
      exact ⟨rfl, [], .start⟩
  | withHidden _ _ ih => exact ih

/-- Whatever the input and however often it was read, restarted and recovered from errors, the stack
of a shift-reduce engine is a path of the automaton from its initial state. Every reduction that the
state on top can make finds more states than its rule has symbols and a goto below them, so the
document is never given up. -/
theorem stack_isPath {e : Engine} (h : Engine.Reachable tables e) {table : ShiftReduceTable}
    {m : ShiftReduce} (hm : e.machine = .shiftReduce table m) :
    table.IsPath m.states ∧
      (∀ a rule, table.action? (m.top table) a = some (.reduce rule) →
        ∃ r s below, tables.rule? rule = some r ∧ r.rhs.length < m.states.length ∧
          m.states.drop r.rhs.length = s :: below ∧ (table.goto? s r.lhs).isSome = true) ∧
      ∀ showHidden, ¬ m.GivesUp tables table showHidden := by
  have hb := belongs_of_reachable h
  rw [hm] at hb
  obtain ⟨rfl, path⟩ := hb
  refine ⟨path, ?_, fun _ => ShiftReduce.not_givesUp closed path⟩
  intro a rule ha
  obtain ⟨r, s, below, target, hr, hlt, hdrop, hgoto⟩ :=
    ShiftReduce.reduction_of_isPath closed path ha
  exact ⟨r, s, below, hr, hlt, hdrop, by rw [hgoto]; rfl⟩

/-- A document with an operator and a closing brace too many. -/
def broken : String := "a = = \x7b 1 \x7d \x7d"

theorem stack_isPath_broken : ∃ e, Engine.start tables .shiftReduce true broken = .ok e ∧
    ∃ m, (e.reads tables 9).machine = .shiftReduce shiftReduce m ∧
      shiftReduce.IsPath m.states ∧ ∀ showHidden, ¬ m.GivesUp tables shiftReduce showHidden := by
  obtain ⟨e, start, he⟩ : ∃ e, Engine.start tables .shiftReduce true broken = .ok e ∧
      e.machine = .shiftReduce shiftReduce (.start shiftReduce (.ofSource tables broken)) :=
    ⟨_, rfl, rfl⟩
  obtain ⟨m, hm⟩ := Engine.machine_reads he 9
  have h := stack_isPath ((Engine.Reachable.start start).reads 9) hm
  exact ⟨e, start, m, hm, h.1, h.2.2⟩

end TableParser.Script
