import TableParser.Grammar.Symbol
/-!
The character automaton of a grammar and the bodies it cannot delimit.

A walk of the automaton takes characters as long as the current state has an edge for the next one;
the state where it stops names the token. A terminal whose end depends on context (a quoted string)
has a `BlockEnd`: after the automaton stops, raw text up to the terminator is added to the token.
-/

namespace TableParser

/-- An edge, taken on a character in any of its inclusive ranges. -/
structure Edge where
  ranges : List (Char × Char)
  target : StateId
  deriving DecidableEq, Repr, Inhabited

/-- Whether the edge can be taken on a character. -/
def Edge.admits (e : Edge) (c : Char) : Bool :=
  e.ranges.any fun (lo, hi) => lo ≤ c && c ≤ hi

/-- A state of the character automaton: the terminal that a walk ending here reports, and the ways
on. -/
structure AutomatonState where
  accept : Option SymbolId := none
  edges : List Edge := []
  deriving DecidableEq, Repr, Inhabited

/-- The next state on a character: the first edge that admits it wins. -/
def AutomatonState.step (s : AutomatonState) (c : Char) : Option StateId :=
  (s.edges.find? fun e => e.admits c).map Edge.target

/-- A character automaton. -/
structure Automaton where
  initial : StateId := 0
  states : Array AutomatonState
  deriving DecidableEq, Repr, Inhabited

namespace Automaton

/-- The state with a number. -/
def state? (a : Automaton) (s : StateId) : Option AutomatonState :=
  a.states[s.toNat]?

/-- The next state from a numbered state. -/
def step (a : Automaton) (s : StateId) (c : Char) : Option StateId :=
  (a.state? s).bind fun st => st.step c

/-- Walks on from a state: where the walk stops, what it has taken (`taken` holds the earlier part,
last character first) and what is left. -/
def walk (a : Automaton) (s : StateId) (taken : List Char) :
    List Char → StateId × List Char × List Char
  | [] => (s, taken.reverse, [])
  | c :: rest =>
    match a.step s c with
    | some next => a.walk next (c :: taken) rest
    | none => (s, taken.reverse, c :: rest)

end Automaton

/-- How a token goes on after the automaton has accepted its symbol: raw text up to and with the
terminator. The character after the escape character never starts the terminator. -/
structure BlockEnd where
  symbol : SymbolId
  terminator : String
  escape : Option Char := none
  deriving DecidableEq, Repr, Inhabited

namespace BlockEnd

/-- Looks for a terminator: the text up to and with it (`before` holds the part already passed, last
character first), and what follows. -/
def find (terminator : List Char) (escape : Option Char) (before : List Char) :
    List Char → Option (List Char × List Char)
  | [] => none
  | c :: rest =>
    if some c = escape then
      match rest with
      | [] => none
      | d :: rest' => find terminator escape (d :: c :: before) rest'
    else if terminator.isPrefixOf (c :: rest) then
      some (before.reverse ++ terminator, (c :: rest).drop terminator.length)
    else find terminator escape (c :: before) rest

/-- Cuts a text after the body that this block end delimits. -/
def split (b : BlockEnd) (rest : List Char) : Option (List Char × List Char) :=
  find b.terminator.toList b.escape [] rest

/-- The length in bytes of the body, terminator included, or `none` if the text ends first. -/
def scan (b : BlockEnd) (rest : String) : Option Nat :=
  (b.split rest.toList).map fun p => (String.ofList p.1).utf8ByteSize

end BlockEnd

end TableParser
