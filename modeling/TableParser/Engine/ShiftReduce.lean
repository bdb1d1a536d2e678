import TableParser.Engine.Event
/-!
The shift-reduce engine: LALR(1) parsing from the bottom up.

The engine keeps a stack of automaton states. Before the token at hand the state on top shifts the
token, reduces by a rule, or accepts. When it can do nothing, the engine passes over input until it
can; when it never can, the document ends.
-/

namespace TableParser

/-- How far a document is. -/
inductive Phase where
  | running | accepted | done
  deriving DecidableEq, Repr

/-- The state of the shift-reduce engine: the input and the automaton states, last one on top. -/
structure ShiftReduce where
  input : TokenStream
  states : List StateId
  phase : Phase := .running
  deriving DecidableEq, Repr

namespace ShiftReduce

/-- The engine before an input. -/
def start (table : ShiftReduceTable) (input : TokenStream) : ShiftReduce :=
  { input, states := [table.initial] }

/-- The state on top. -/
def top (table : ShiftReduceTable) (m : ShiftReduce) : StateId :=
  m.states.headD table.initial

/-- Ends the document where the table has a hole. -/
def giveUp (m : ShiftReduce) : Event × ShiftReduce :=
  (.error ⟨"", m.input.current.position, []⟩, { m with phase := .done })

/-- Replaces the right side of a rule by its left side. -/
def reduce (t : Tables) (table : ShiftReduceTable) (rule : RuleId) (m : ShiftReduce) :
    Event × ShiftReduce :=
  match t.rule? rule with
  | none => m.giveUp
  | some r =>
    let below := m.states.drop r.rhs.length
    match below.head?.bind fun s => table.goto? s r.lhs with
    | some target => (.reduce rule, { m with states := target :: below })
    | none => { m with states := below }.giveUp

/-- Passes over input until the state on top has an action; without one at the end, the document is
over. -/
def fail (t : Tables) (table : ShiftReduceTable) (m : ShiftReduce) : Event × ShiftReduce :=
  let top := m.top table
  let (e, input) :=
    m.input.recoverError t (table.expected top) fun s => (table.action? top s).isSome
  let stuck := input.atEnd && (table.action? top t.endOfStream).isNone
  (.error e, { m with input, phase := if stuck then .done else m.phase })

/-- One step. -/
def step (t : Tables) (table : ShiftReduceTable) (showHidden : Bool) (m : ShiftReduce) :
    Event × ShiftReduce :=
  match m.phase with
  | .accepted | .done => (.endDocument, { m with phase := .done })
  | .running =>
    match m.input.nextHidden t showHidden with
    | (some tok, input) => (.shift tok, { m with input })
    | (none, input) =>
      let m := { m with input }
      let tok := m.input.current
      match table.action? (m.top table) tok.symbol with
      | some (.shift target) =>
        (.shift tok, { m with states := target :: m.states, input := m.input.advance })
      | some (.reduce rule) => m.reduce t table rule
      | some .accept => if m.input.atEnd then (.accept, { m with phase := .accepted })
        else m.fail t table
      | none => m.fail t table

end ShiftReduce

end TableParser
