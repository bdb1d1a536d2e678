import TableParser.Json.Lexeme
/-!
JSON values.

A value is read from lexemes with the open arrays and objects on an explicit stack, and written back
to lexemes from a list of pending pieces, so that no depth of nesting is too deep. Objects keep
their fields in order, repeated ones included; whether that is an error is for the reader of the
value to say.

Like `serde_json`, a reading takes no comma before a closing bracket and nothing but blanks after
the value. `serde_json` also refuses more than 127 open arrays and objects, though not in what it
passes over. That limit is therefore none of a text: it is in the reader of trees, `Node.ofJson?`,
the only values here whose own parts can nest so deep.
-/

namespace TableParser

/-- A JSON value. Numbers keep their spelling; a string or key that denotes no text is `none`. -/
inductive Json where
  | null
  | bool (b : Bool)
  | number (text : String)
  | string (text : Option String)
  | array (items : List Json)
  | object (fields : List (Option String × Json))
  deriving Inhabited

namespace Json

/-! ### Reading -/

/-- An array or object around the value being read, with what came before, last one first. -/
inductive Frame where
  | items (before : List Json)
  | field (before : List (Option String × Json)) (key : Option String)

/-- What may come next. -/
inductive Expect where
  /-- A value. -/
  | value
  /-- A value or the end of an array that has no items yet. -/
  | firstItem
  /-- A key or the end of an object that has no fields yet. -/
  | firstKey
  /-- A key, after these fields. -/
  | key (before : List (Option String × Json))
  /-- The colon after a key. -/
  | colon (before : List (Option String × Json)) (key : Option String)
  /-- Whatever follows a complete value. -/
  | done (v : Json)

/-- Where a reading of lexemes stands. -/
structure Place where
  stack : List Frame
  expect : Expect

/-- Reads the first lexeme of a value. -/
def Place.openValue (stack : List Frame) : Lexeme → Option Place
  | .null => some ⟨stack, .done .null⟩
  | .bool b => some ⟨stack, .done (.bool b)⟩
  | .number text => some ⟨stack, .done (.number text)⟩
  | .string text => some ⟨stack, .done (.string text)⟩
  | .openArray => some ⟨.items [] :: stack, .firstItem⟩
  | .openObject => some ⟨stack, .firstKey⟩
  | _ => none

/-- Reads the lexeme after a complete value. -/
def Place.afterValue (v : Json) : List Frame → Lexeme → Option Place
  | .items before :: outer, .comma => some ⟨.items (v :: before) :: outer, .value⟩
  | .items before :: outer, .closeArray => some ⟨outer, .done (.array (v :: before).reverse)⟩
  | .field before key :: outer, .comma => some ⟨outer, .key ((key, v) :: before)⟩
  | .field before key :: outer, .closeObject =>
    some ⟨outer, .done (.object ((key, v) :: before).reverse)⟩
  | _, _ => none

/-- Reads a lexeme. -/
def Place.step (p : Place) (w : Lexeme) : Option Place :=
  match p.expect, w with
  | .value, _ => Place.openValue p.stack w
  | .firstItem, .closeArray => some ⟨p.stack.tail, .done (.array [])⟩
  | .firstItem, _ => Place.openValue p.stack w
  | .firstKey, .closeObject => some ⟨p.stack, .done (.object [])⟩
  | .firstKey, .string key => some ⟨p.stack, .colon [] key⟩
  | .key before, .string key => some ⟨p.stack, .colon before key⟩
  | .colon before key, .colon => some ⟨.field before key :: p.stack, .value⟩
  | .done v, _ => Place.afterValue v p.stack w
  | _, _ => none

/-- The value read, when it is complete. -/
def Place.finish (p : Place) : Option Json :=
  match p.stack, p.expect with
  | [], .done v => some v
  | _, _ => none

/-- The value that lexemes spell. -/
def ofLexemes? (words : List Lexeme) : Option Json :=
  (words.foldlM Place.step ⟨[], .value⟩).bind Place.finish

/-- The value of a JSON text. -/
def parse? (bytes : List UInt8) : Option Json :=
  (lexemes? bytes).bind ofLexemes?

/-! ### Writing -/

/-- A piece still to be written. -/
inductive Piece where
  | word (w : Lexeme)
  | value (v : Json)

/-- The items of an array with commas between them. -/
def itemPieces : List Json → List Piece
  | [] => []
  | [v] => [.value v]
  | v :: rest => .value v :: .word .comma :: itemPieces rest

/-- The fields of an object with commas between them. -/
def fieldPieces : List (Option String × Json) → List Piece
  | [] => []
  | [(k, v)] => [.word (.string k), .word .colon, .value v]
  | (k, v) :: rest =>
    .word (.string k) :: .word .colon :: .value v :: .word .comma :: fieldPieces rest

/-- The size of a piece: what is left to write of it. -/
noncomputable def Piece.weight : Piece → Nat
  | .word _ => 1
  | .value v => 1 + 5 * sizeOf v

/-- The size of pending pieces. -/
noncomputable def weight (pending : List Piece) : Nat :=
  pending.foldr (fun p rest => p.weight + rest) 0

theorem weight_cons (p : Piece) (rest : List Piece) :
    weight (p :: rest) = p.weight + weight rest := rfl

theorem weight_append (a b : List Piece) : weight (a ++ b) = weight a + weight b := by
  induction a with
  | nil => simp [weight]
  | cons p a ih => rw [List.cons_append, weight_cons, weight_cons, ih, Nat.add_assoc]

theorem weight_itemPieces : ∀ items : List Json, weight (itemPieces items) ≤ 5 * sizeOf items
  | [] => by simp [itemPieces, weight]
  | [v] => by simp [itemPieces, weight, Piece.weight]; omega
  | v :: w :: rest => by
    have ih := weight_itemPieces (w :: rest)
    simp only [itemPieces, weight_cons, Piece.weight, List.cons.sizeOf_spec] at ih ⊢
    omega

theorem weight_fieldPieces :
    ∀ fields : List (Option String × Json), weight (fieldPieces fields) ≤ 5 * sizeOf fields
  | [] => by simp [fieldPieces, weight]
  | [(k, v)] => by simp [fieldPieces, weight, Piece.weight]; omega
  | (k, v) :: f :: rest => by
    have ih := weight_fieldPieces (f :: rest)
    simp only [fieldPieces, weight_cons, Piece.weight, List.cons.sizeOf_spec,
      Prod.mk.sizeOf_spec] at ih ⊢
    omega

/-- Writes pending pieces as lexemes, added to `done`, which holds the last one first. -/
def flatten (done : List Lexeme) (pending : List Piece) : List Lexeme :=
  match pending with
  | [] => done.reverse
  | .word w :: rest => flatten (w :: done) rest
  | .value .null :: rest => flatten (.null :: done) rest
  | .value (.bool b) :: rest => flatten (.bool b :: done) rest
  | .value (.number text) :: rest => flatten (.number text :: done) rest
  | .value (.string text) :: rest => flatten (.string text :: done) rest
  | .value (.array items) :: rest =>
    flatten (.openArray :: done) (itemPieces items ++ .word .closeArray :: rest)
  | .value (.object fields) :: rest =>
    flatten (.openObject :: done) (fieldPieces fields ++ .word .closeObject :: rest)
termination_by weight pending
decreasing_by
  all_goals simp only [weight_append, weight_cons, Piece.weight]
  · omega
  · omega
  · omega
  · omega
  · omega
  · have := weight_itemPieces items
    simp only [array.sizeOf_spec]
    omega
  · have := weight_fieldPieces fields
    simp only [object.sizeOf_spec]
    omega

/-- The lexemes of a value. -/
def lexemes (v : Json) : List Lexeme :=
  flatten [] [.value v]

/-- The JSON text of a value without blanks. -/
def compactText (v : Json) : String :=
  compact v.lexemes

/-- The JSON text of a value with one item a line. -/
def prettyText (v : Json) : String :=
  pretty v.lexemes

/-! ### Plain values -/

/-- A text as a value. -/
def text (s : String) : Json := .string (some s)

/-- A natural number as a value. -/
def nat (n : Nat) : Json := .number n.repr

/-- An object with plain keys. -/
def record (fields : List (String × Json)) : Json :=
  .object (fields.map fun (k, v) => (some k, v))

end Json

end TableParser
