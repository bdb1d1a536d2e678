import TableParser.Grammar.Tables
import TableParser.Json.Value
import TableParser.Literal.Binary64
import TableParser.Tree.Node
/-!
Literals: the values that leaves spell.

Which symbols spell which kind of literal is a matter of the grammar: the attribute `literal` of a
symbol names the kind.
-/

namespace TableParser

/-- A value that a leaf spells. -/
inductive Literal where
  /-- A name, as written. -/
  | symbol (text : String)
  /-- A text, without its quotes and escapes. -/
  | string (text : String)
  /-- A whole number of 64 bits. -/
  | integer (value : Int)
  /-- A number with a point. -/
  | real (value : Binary64)
  deriving DecidableEq, Repr

namespace Literal

/-- The attribute that names the kind of literal. -/
def attributeName : String := "literal"

/-! ### Reading -/

/-- Reads a character of a quoted text; `escaped` tells whether it follows a backslash. -/
def unescapeStep : Bool × String → Char → Bool × String
  | (false, out), c => if c = '\\' then (true, out) else (false, out.push c)
  | (true, out), 'n' => (false, out.push '\n')
  | (true, out), 't' => (false, out.push '\t')
  | (true, out), 'r' => (false, out.push '\r')
  | (true, out), c => (false, out.push c)

/-- Replaces the escapes of a text; a backslash at its end stays. -/
def unescape (cs : List Char) : String :=
  match cs.foldl unescapeStep (false, "") with
  | (true, out) => out.push '\\'
  | (false, out) => out

/-- The text between the quotes of a literal. -/
def unquote? (text : String) : Option String :=
  match text.toList with
  | '\"' :: rest => if rest.getLast? = some '\"' then some (unescape rest.dropLast) else none
  | _ => none

/-- Whether a number has 64 bits. -/
def fits (i : Int) : Bool := -0x8000000000000000 ≤ i && i < 0x8000000000000000

/-- The whole number that a text spells, with an optional sign. -/
def integer? (text : String) : Option Int :=
  let (negative, digits) := Binary64.splitSign text.toList
  if digits ≠ [] ∧ digits.all Char.isDigit then
    let n : Int := Binary64.natOfDigits digits
    let i := if negative then -n else n
    if fits i then some i else none
  else none

/-- The literal of a kind that a text spells. -/
def parse? (kind text : String) : Option Literal :=
  match kind with
  | "symbol" => some (.symbol text)
  | "string" => (unquote? text).map .string
  | "integer" => (integer? text).map .integer
  | "real" => (Binary64.ofText? text).map .real
  | _ => none

/-- The literal of a leaf, if its symbol has a kind of literal and the text spells one. -/
def ofNode? (t : Tables) (n : Node) : Option Literal :=
  if n.label.error then none
  else do
    let text ← n.label.value
    let kind ← t.attribute? n.label.id attributeName
    parse? kind text

/-! ### Writing -/

/-- The name of a literal's kind. -/
def kindName : Literal → String
  | .symbol _ => "symbol"
  | .string _ => "string"
  | .integer _ => "integer"
  | .real _ => "real"

/-- What stands for a character between quotes. -/
def escapeChar (c : Char) : String :=
  if c = '\"' then "\\\"" else if c = '\\' then "\\\\" else c.toString

/-- The text that spells a literal. -/
def display : Literal → String
  | .symbol text => text
  | .string text => text.foldl (fun out c => out ++ escapeChar c) "\"" ++ "\""
  | .integer i => i.repr
  | .real x => x.display

/-- The text of a name or text. -/
def asText? : Literal → Option String
  | .symbol text | .string text => some text
  | _ => none

/-- The value of a number. -/
def asNumber? : Literal → Option Binary64
  | .integer i => some (.ofInt i)
  | .real x => some x
  | _ => none

/-- The literal as a JSON value; numbers with a point have none. -/
def toJson? (l : Literal) : Option Json :=
  let tagged (v : Json) : Json := .record [("kind", .text l.kindName), ("value", v)]
  match l with
  | .symbol text | .string text => some (tagged (.text text))
  | .integer i => some (tagged (.number i.repr))
  | .real _ => none

end Literal

end TableParser
