import TableParser.Engine.Predictive
import TableParser.Engine.ShiftReduce
/-!
Parse engines.

An engine of either strategy is read one event at a time; after the end it reports the end again and
again. `Engine.run` reads on to the end and collects the events. Tables may be such that a run never
ends (a rule that starts with its own left side, for one), so a run has a limit on its length, far
beyond what any other tables need.
-/

namespace TableParser

/-- The two ways to parse. -/
inductive Strategy where
  /-- LL(1). -/
  | predictive
  /-- LALR(1). -/
  | shiftReduce
  deriving DecidableEq, Repr, Inhabited

namespace Strategy

/-- Both strategies. -/
def all : List Strategy := [.predictive, .shiftReduce]

/-- The strategy that a name stands for; upper and lower case letters count alike. -/
def ofName? (name : String) : Option Strategy :=
  match name.map Char.toLower with
  | "ll" | "ll1" | "predictive" => some .predictive
  | "lalr" | "lalr1" | "shift-reduce" | "shift_reduce" => some .shiftReduce
  | _ => none

/-- The short name of a strategy. -/
def label : Strategy → String
  | .predictive => "ll"
  | .shiftReduce => "lalr"

end Strategy

/-- The engine of a strategy with its table. -/
inductive Machine where
  | predictive (table : PredictionTable) (m : Predictive)
  | shiftReduce (table : ShiftReduceTable) (m : ShiftReduce)
  deriving DecidableEq

namespace Machine

/-- A machine before an input. -/
def start (t : Tables) (strategy : Strategy) (input : TokenStream) : Except TableError Machine :=
  match strategy with
  | .predictive => do
    let table ← t.getPrediction
    return .predictive table (.start t input)
  | .shiftReduce => do
    let table ← t.getShiftReduce
    return .shiftReduce table (.start table input)

/-- The same machine before another input. -/
def restart (t : Tables) (input : TokenStream) : Machine → Machine
  | .predictive table _ => .predictive table (.start t input)
  | .shiftReduce table _ => .shiftReduce table (.start table input)

/-- One step. -/
def step (t : Tables) (showHidden : Bool) : Machine → Event × Machine
  | .predictive table m => (m.step t table showHidden).map id (.predictive table)
  | .shiftReduce table m => (m.step t table showHidden).map id (.shiftReduce table)

/-- The input that is left. -/
def input : Machine → TokenStream
  | .predictive _ m => m.input
  | .shiftReduce _ m => m.input

/-- The height of the stack. -/
def depth : Machine → Nat
  | .predictive _ m => m.stack.length
  | .shiftReduce _ m => m.states.length

/-- The automaton state on top, for the shift-reduce machine. -/
def state? : Machine → Option StateId
  | .predictive _ _ => none
  | .shiftReduce table m => some (m.top table)

end Machine

/-- An engine: a machine, the event it reported last, and whether hidden tokens are shown. -/
structure Engine where
  machine : Machine
  event : Event := .initial
  showHidden : Bool := false
  deriving DecidableEq

namespace Engine

/-- An engine before an input; it needs the table of its strategy. -/
def start (t : Tables) (strategy : Strategy) (showHidden : Bool) (source : String) :
    Except TableError Engine := do
  let machine ← Machine.start t strategy (.ofSource t source)
  return { machine, showHidden }

/-- The same engine before another input. -/
def restart (t : Tables) (source : String) (e : Engine) : Engine :=
  { e with machine := e.machine.restart t (.ofSource t source), event := .initial }

/-- Shows hidden tokens from now on, or not. -/
def withHidden (on : Bool) (e : Engine) : Engine :=
  { e with showHidden := on }

/-- Reads the next event. -/
def read (t : Tables) (e : Engine) : Engine :=
  let (event, machine) := e.machine.step t e.showHidden
  { e with event, machine }

/-- Whether the last event was the end of the document. -/
def ended (e : Engine) : Bool := e.event = .endDocument

/-- Where the token at hand starts. -/
def position (e : Engine) : Position := e.machine.input.current.position

/-- Reads at most `limit` events; gives those before the end of the document (added to `done`, which
holds the last one first) and the engine after the last read. -/
def collect (t : Tables) : Nat → List Event → Engine → List Event × Engine
  | 0, done, e => (done.reverse, e)
  | limit + 1, done, e =>
    let e := e.read t
    if e.ended then (done.reverse, e) else collect t limit (e.event :: done) e

/-- A bound on the events of a run that ends. -/
def limit (e : Engine) : Nat :=
  (e.machine.input.ahead.length + e.machine.depth + 1) * 0x100000000

/-- Reads on to the end of the document. -/
def run (t : Tables) (e : Engine) : List Event × Engine :=
  collect t e.limit [] e

end Engine

end TableParser
