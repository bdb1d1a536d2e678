import TableParser.Grammar.Asset.Json
import TableParser.Tree.Node
/-!
Trees as JSON.

A node is written as a record; what is absent, empty or false is left out. Writing keeps the nodes
still to write on a list and so works at any depth. Reading follows the rules for records, and
allows at most 127 open arrays and objects, which is the limit of `serde_json`: a node is one, its
list of children another. Line and column are read as numbers of 32 bits, offset and length as
numbers of 64.
-/

namespace TableParser.Node

open Json (Lexeme asNat? asText? asBool? asList? fields?)
open Json.Field (required withDefault optional)

/-! ### Writing -/

/-- A piece still to be written. -/
inductive Piece where
  | word (w : Lexeme)
  | node (n : Node)

/-- The node of a piece. -/
def Piece.node? : Piece → Option Node
  | .word _ => none
  | .node n => some n

/-- The words of a key and its colon. -/
def keyWords (key : String) : List Lexeme :=
  [.string (some key), .colon]

/-- The words of a number field after another field. -/
def natWords (key : String) (n : Nat) : List Lexeme :=
  .comma :: keyWords key ++ [.number n.repr]

/-- The words of a text field after another field; an absent text has none. -/
def textWords (key : String) (text : Option String) : List Lexeme :=
  text.elim [] fun s => .comma :: keyWords key ++ [.string (some s)]

/-- The words of a flag after another field; a false one has none. -/
def flagWords (key : String) (b : Bool) : List Lexeme :=
  if b then .comma :: keyWords key ++ [.bool true] else []

/-- The words of a label that come before the children. -/
def headWords (l : Label) : List Lexeme :=
  keyWords "symbol" ++ [.string (some l.symbol)] ++ natWords "symbol_id" l.id.index
    ++ textWords "value" l.value

/-- The words of a label that come after the children. -/
def tailWords (l : Label) : List Lexeme :=
  flagWords "is_hidden" l.hidden ++ flagWords "is_collapsed" l.collapsed
    ++ flagWords "is_error" l.error ++ textWords "substitute_for" l.substituteFor
    ++ natWords "line" l.position.line ++ natWords "column" l.position.column
    ++ natWords "offset" l.position.offset ++ natWords "length" l.length

/-- Words as pieces. -/
def words (ws : List Lexeme) : List Piece := ws.map .word

/-- Nodes with commas between them. -/
def commaPieces : List Node → List Piece
  | [] => []
  | [n] => [.node n]
  | n :: rest => .node n :: .word .comma :: commaPieces rest

/-- The list of children after another field; an empty one has no pieces. -/
def childPieces (children : List Node) : List Piece :=
  match children with
  | [] => []
  | _ => words (.comma :: keyWords "children" ++ [.openArray]) ++ commaPieces children
    ++ words [.closeArray]

/-- The pieces of a node. -/
def pieces (n : Node) : List Piece :=
  words (.openObject :: headWords n.label) ++ childPieces n.children
    ++ words (tailWords n.label ++ [.closeObject])

theorem filterMap_words (ws : List Lexeme) : (words ws).filterMap Piece.node? = [] := by
  induction ws with
  | nil => rfl
  | cons w rest ih => exact ih

theorem filterMap_commaPieces :
    ∀ nodes : List Node, (commaPieces nodes).filterMap Piece.node? = nodes
  | [] => rfl
  | [n] => rfl
  | n :: m :: rest => by
    have ih := filterMap_commaPieces (m :: rest)
    simp only [commaPieces, List.filterMap_cons, Piece.node?]
    rw [ih]

theorem filterMap_childPieces (children : List Node) :
    (childPieces children).filterMap Piece.node? = children := by
  cases children with
  | nil => rfl
  | cons n rest =>
    rw [childPieces, List.filterMap_append, List.filterMap_append, filterMap_words,
      filterMap_words, filterMap_commaPieces]
    · simp
    · simp

theorem filterMap_pieces (n : Node) : n.pieces.filterMap Piece.node? = n.children := by
  rw [pieces, List.filterMap_append, List.filterMap_append, filterMap_words, filterMap_words,
    filterMap_childPieces]
  simp

/-- Writes pending pieces, added to `done`, which holds the last word first. -/
def flatten (done : List Lexeme) (pending : List Piece) : List Lexeme :=
  match pending with
  | [] => done.reverse
  | .word w :: rest => flatten (w :: done) rest
  | .node n :: rest => flatten done (n.pieces ++ rest)
termination_by (sizeOf (pending.filterMap Piece.node?), pending.length)
decreasing_by
  · exact Prod.Lex.right _ (Nat.lt_succ_self _)
  · apply Prod.Lex.left
    rw [List.filterMap_append, filterMap_pieces]
    exact sizeOf_visit n _

/-- The JSON words of a tree. -/
def lexemes (n : Node) : List Lexeme :=
  flatten [] [.node n]

/-- The JSON text of a tree without blanks. -/
def compactText (n : Node) : String :=
  Json.compact n.lexemes

/-- The JSON text of a tree with one item a line. -/
def prettyText (n : Node) : String :=
  Json.pretty n.lexemes

/-! ### Reading -/

/-- How many arrays and objects may be open at once. -/
def maxNesting : Nat := 127

/-- The names of a node's fields. -/
def fieldNames : List String :=
  ["symbol", "symbol_id", "value", "children", "is_hidden", "is_collapsed", "is_error",
   "substitute_for", "line", "column", "offset", "length"]

/-- Reads a node, its children by `readChildren`. -/
def ofFields? (readChildren : Json → Option (List Node)) (v : Json) : Option Node := do
  match ← fields? fieldNames v with
  | [symbol, id, value, children, hidden, collapsed, error, substituteFor, line, column, offset,
      length] =>
    let label : Label := {
      symbol := ← required asText? symbol
      id := ← required SymbolId.ofJson? id
      value := ← optional asText? value
      hidden := ← withDefault false asBool? hidden
      collapsed := ← withDefault false asBool? collapsed
      error := ← withDefault false asBool? error
      substituteFor := ← optional asText? substituteFor
      position := {
        line := ← required (asNat? 0x100000000) line
        column := ← required (asNat? 0x100000000) column
        offset := ← required (asNat? 0x10000000000000000) offset }
      length := ← required (asNat? 0x10000000000000000) length }
    return mk label (← withDefault [] readChildren children)
  | _ => none

/-- Reads a node where `room` more arrays and objects may be opened. -/
def ofJson? : (room : Nat) → Json → Option Node
  | 0, _ => none
  | 1, v => ofFields? (fun _ => none) v
  | room + 2, v => ofFields? (asList? (ofJson? room)) v

/-- The tree of a JSON text. -/
def parse? (bytes : List UInt8) : Option Node :=
  (Json.parse? bytes).bind (ofJson? maxNesting)

end TableParser.Node
