import TableParser.Grammar.Tables
import TableParser.Token.Stream
/-!
Parse events: what an engine reports, one at a time.

The predictive engine reports the rule with which it opens a non-terminal, then everything inside,
then the same rule as it closes. The shift-reduce engine reports tokens as they are shifted and a
rule when its right side is complete. Both report errors and the end alike.
-/

namespace TableParser

/-- A stretch of input that recovery has passed over. -/
structure SyntaxError where
  /-- The input that was passed over; empty at the end of the input. -/
  text : String
  position : Position
  /-- The terminals that would have been accepted. -/
  expected : List SymbolId
  deriving DecidableEq, Repr, Inhabited

/-- What an engine reports. -/
inductive Event where
  /-- Nothing has been read yet. -/
  | initial
  /-- A terminal was matched, or a hidden token is shown. -/
  | terminal (token : Token)
  /-- A non-terminal was expanded by a rule. -/
  | nonTerminal (rule : RuleId)
  /-- The expansion of a non-terminal is complete. -/
  | endNonTerminal (rule : RuleId)
  /-- A token was shifted, or a hidden token is shown. -/
  | shift (token : Token)
  /-- The right side of a rule was replaced by its left side. -/
  | reduce (rule : RuleId)
  /-- The input is a sentence. -/
  | accept
  /-- Some input was passed over. -/
  | error (e : SyntaxError)
  /-- There is nothing more to read. -/
  | endDocument
  deriving DecidableEq, Repr, Inhabited

namespace Event

/-- The name of the kind of event. -/
def kindName : Event → String
  | .initial => "Initial"
  | .terminal _ => "Terminal"
  | .nonTerminal _ => "NonTerminal"
  | .endNonTerminal _ => "EndNonTerminal"
  | .shift _ => "Shift"
  | .reduce _ => "Reduce"
  | .accept => "Accept"
  | .error _ => "Error"
  | .endDocument => "EndDocument"

/-- The rule that an event is about. -/
def rule? : Event → Option RuleId
  | .nonTerminal r | .endNonTerminal r | .reduce r => some r
  | _ => none

/-- The token that an event is about. -/
def token? : Event → Option Token
  | .terminal tok | .shift tok => some tok
  | _ => none

/-- The error that an event is about. -/
def error? : Event → Option SyntaxError
  | .error e => some e
  | _ => none

/-- The symbol that an event is about: the token's, the left side of the rule, or the error
symbol. -/
def symbol? (t : Tables) : Event → Option SymbolId
  | .terminal tok | .shift tok => some tok.symbol
  | .nonTerminal r | .endNonTerminal r | .reduce r => (t.rule? r).map Rule.lhs
  | .error _ => some t.error
  | .initial | .accept | .endDocument => none

/-- The input that an event carries. -/
def value? : Event → Option String
  | .terminal tok | .shift tok => some tok.text
  | .error e => some e.text
  | _ => none

/-- Where the input that an event carries starts. -/
def position? : Event → Option Position
  | .terminal tok | .shift tok => some tok.position
  | .error e => some e.position
  | _ => none

end Event

namespace SyntaxError

/-- The error of passing over tokens from the one at hand on. -/
def ofSkipped (position : Position) (expected : List SymbolId) (skipped : List Token) :
    SyntaxError :=
  ⟨String.join (skipped.map Token.text), position, expected⟩

end SyntaxError

namespace TokenStream

/-- Deals with hidden tokens at the front: when they are shown, the first one is given and passed;
otherwise all of them are passed. -/
def nextHidden (t : Tables) (visible : Bool) (s : TokenStream) : Option Token × TokenStream :=
  if visible then
    match s.ahead with
    | tok :: _ => if t.isHidden tok.symbol then (some tok, s.advance) else (none, s)
    | [] => (none, s)
  else (none, s.dropHidden t)

/-- Recovers from an error at the token at hand. -/
def recoverError (t : Tables) (expected : List SymbolId) (sync : SymbolId → Bool)
    (s : TokenStream) : SyntaxError × TokenStream :=
  let r := s.recover t sync
  (.ofSkipped s.current.position expected r.1, r.2)

end TokenStream

end TableParser
