import TableParser.Engine.Event
/-!
The predictive engine: LL(1) parsing from the top down.

The engine keeps a stack of what is still to come: grammar symbols, and marks that close the
non-terminals opened so far. A non-terminal on top is replaced by the right side of the rule that
the table predicts before the token at hand; a terminal on top has to be that token. Otherwise the
engine passes over input until what is on top can go on, and drops it if it never can.

      stack                       input        event
      Config                      a = 1 …      nonTerminal Config → Statement Statements
      Statement Statements ⟩      a = 1 …      …
      Symbol … ⟩ …                a = 1 …      terminal a
-/

namespace TableParser

/-- What is still to come. -/
inductive Pending where
  | symbol (s : SymbolId)
  /-- The end of the non-terminal that this rule opened. -/
  | close (rule : RuleId)
  deriving DecidableEq, Repr

/-- The state of the predictive engine: the input, and what is to come with the next on top. -/
structure Predictive where
  input : TokenStream
  stack : List Pending
  finished : Bool := false
  deriving DecidableEq, Repr

namespace Predictive

/-- The engine before an input. -/
def start (t : Tables) (input : TokenStream) : Predictive :=
  { input, stack := [.symbol t.start] }

/-- What the right side of a rule puts on the stack. -/
def body (t : Tables) (rule : RuleId) : List Pending :=
  (t.rule? rule).elim [] fun r => r.rhs.map .symbol

/-- Passes over input until `sync` accepts a token; what is on top stays only if it does. -/
def fail (t : Tables) (expected : List SymbolId) (sync : SymbolId → Bool) (m : Predictive) :
    Event × Predictive :=
  let (e, input) := m.input.recoverError t expected sync
  (.error e,
    { m with input, stack := if sync input.current.symbol then m.stack else m.stack.tail })

/-- Expands the non-terminal on top. -/
def expand (t : Tables) (table : PredictionTable) (nonTerminal : SymbolId) (m : Predictive) :
    Event × Predictive :=
  match table.get? nonTerminal m.input.current.symbol with
  | some rule =>
    (.nonTerminal rule, { m with stack := body t rule ++ .close rule :: m.stack.tail })
  | none => m.fail t (table.expected nonTerminal) fun s => (table.get? nonTerminal s).isSome

/-- Matches the terminal on top. -/
def matchTerminal (t : Tables) (terminal : SymbolId) (m : Predictive) : Event × Predictive :=
  if m.input.current.symbol = terminal then
    (.terminal m.input.current, { m with input := m.input.advance, stack := m.stack.tail })
  else m.fail t [terminal] fun s => s = terminal

/-- Goes on when nothing is to come: the end, or input that is left over. -/
def finish (t : Tables) (m : Predictive) : Event × Predictive :=
  if m.input.atEnd then (.endDocument, { m with finished := true })
  else
    let (e, input) := m.input.recoverError t [t.endOfStream] fun _ => false
    (.error e, { m with input })

/-- One step. Complete rules are closed before the input is looked at, so that hidden tokens fall
into the enclosing non-terminal. -/
def step (t : Tables) (table : PredictionTable) (showHidden : Bool) (m : Predictive) :
    Event × Predictive :=
  if m.finished then (.endDocument, m)
  else
    match m.stack with
    | .close rule :: below => (.endNonTerminal rule, { m with stack := below })
    | stack =>
      match m.input.nextHidden t showHidden with
      | (some tok, input) => (.terminal tok, { m with input })
      | (none, input) =>
        let m := { m with input }
        match stack with
        | .symbol s :: _ => if t.isNonTerminal s then m.expand t table s else m.matchTerminal t s
        | _ => m.finish t

end Predictive

end TableParser
