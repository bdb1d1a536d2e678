import TableParser.Grammar.Symbol
/-!
Positions and tokens.

A position counts lines and columns from one, columns in characters, and bytes from zero. A token is
a piece of the input with the symbol that the scanner gave it and the position where it starts.
-/

namespace TableParser

/-- A place in the input.

The counters have no bound, where words of 32 bits would do for the line and the column of all but
the longest inputs. Nothing reads those two back: they are counted on, compared and written out, and
no step of a scanner, an engine or the builder decides by them. Only the reader of written trees
wants them in 32 bits, and `Node.FitsWords` says which trees fit. -/
structure Position where
  line : Nat
  column : Nat
  offset : Nat
  deriving DecidableEq, Repr, Inhabited

namespace Position

/-- The start of the input. -/
def start : Position := ⟨1, 1, 0⟩

/-- The place after a character. -/
def step (p : Position) (c : Char) : Position :=
  if c = '\n' then ⟨p.line + 1, 1, p.offset + c.utf8Size⟩
  else ⟨p.line, p.column + 1, p.offset + c.utf8Size⟩

/-- The place where a text ends that starts here. -/
def after (p : Position) (text : String) : Position :=
  text.toList.foldl step p

end Position

/-- A piece of the input. -/
structure Token where
  symbol : SymbolId
  text : String
  position : Position
  deriving DecidableEq, Repr, Inhabited

namespace Token

/-- The length in bytes. -/
def length (t : Token) : Nat := t.text.utf8ByteSize

/-- Whether the token has no text. -/
def isEmpty (t : Token) : Bool := t.text.isEmpty

/-- The place where the token ends. -/
def stop (t : Token) : Position := t.position.after t.text

end Token

end TableParser
