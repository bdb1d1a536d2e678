/-!
JSON lexemes: the words of a JSON text.

This module and the ones on values and records stand for `serde_json`, the text layer under grammars
and trees. What is taken over of it here:

* Words are read strictly: no zero before other digits, digits on both sides of a point, no
  character below a blank inside a string, and only the escapes of the format.
* A string is well-formed by its shape. Bytes that are no UTF-8 and halves of surrogate pairs are
  refused only where its text is wanted, so a field that is passed over may hold them.
* Quotes, backslashes and characters below a blank are written as escapes, short ones where there
  are any, and all other characters as they are.
* There are two layouts: without blanks, and with one item a line, two spaces a level, a space after
  a colon, and `{}` and `[]` for what is empty.

Reading is one fold over the bytes: the state says which word is open, and every byte either belongs
to it, ends it, or is refused. Writing is a function of each lexeme alone, so a JSON text is the
lexemes' texts in a row, with blanks between them where a reader likes them.

A string lexeme holds the text that it denotes. It holds `none` where its shape is right but it
denotes no text, because its bytes are no UTF-8 or an escape names half of a surrogate pair.
-/

namespace TableParser.Json

/-- A word of a JSON text. Numbers keep their spelling. -/
inductive Lexeme where
  | openObject | closeObject | openArray | closeArray | colon | comma
  | null
  | bool (b : Bool)
  | number (text : String)
  | string (text : Option String)
  deriving DecidableEq, Repr, Inhabited

/-! ### Strings -/

/-- The value of a hexadecimal digit. -/
def hexDigit? (b : UInt8) : Option Nat :=
  if 0x30 ≤ b ∧ b ≤ 0x39 then some (b.toNat - 0x30)
  else if 0x41 ≤ b ∧ b ≤ 0x46 then some (b.toNat - 0x37)
  else if 0x61 ≤ b ∧ b ≤ 0x66 then some (b.toNat - 0x57)
  else none

/-- The value of four hexadecimal digits. -/
def hexUnit? (a b c d : UInt8) : Option Nat := do
  return (((← hexDigit? a) * 16 + (← hexDigit? b)) * 16 + (← hexDigit? c)) * 16 + (← hexDigit? d)

/-- The character that follows a backslash in a short escape, and the byte it stands for. -/
def shortEscape? (b : UInt8) : Option UInt8 :=
  match b with
  | 0x22 => some 0x22
  | 0x5C => some 0x5C
  | 0x2F => some 0x2F
  | 0x62 => some 0x08
  | 0x66 => some 0x0C
  | 0x6E => some 0x0A
  | 0x72 => some 0x0D
  | 0x74 => some 0x09
  | _ => none

/-- Puts the bytes of a code point before a list of bytes kept last byte first. -/
def pushCode (code : Nat) (done : List UInt8) : List UInt8 :=
  (String.utf8EncodeChar (Char.ofNat code)).reverse ++ done

/-- Replaces the escapes of a string by the bytes they stand for; `done` holds the bytes so far,
last one first. A pair of surrogate escapes makes one character. -/
def unescape (done : List UInt8) : List UInt8 → Option (List UInt8)
  | [] => some done.reverse
  | 0x5C :: 0x75 :: a :: b :: c :: d :: rest =>
    match hexUnit? a b c d with
    | none => none
    | some u =>
      if u < 0xD800 ∨ 0xDFFF < u then unescape (pushCode u done) rest
      else if 0xDC00 ≤ u then none
      else
        match rest with
        | 0x5C :: 0x75 :: a' :: b' :: c' :: d' :: rest' =>
          match hexUnit? a' b' c' d' with
          | none => none
          | some v =>
            if 0xDC00 ≤ v ∧ v ≤ 0xDFFF then
              unescape (pushCode (0x10000 + (u - 0xD800) * 0x400 + (v - 0xDC00)) done) rest'
            else none
        | _ => none
  | 0x5C :: e :: rest =>
    match shortEscape? e with
    | some b => unescape (b :: done) rest
    | none => none
  | b :: rest => unescape (b :: done) rest

/-- The text that the bytes between two quotes denote. -/
def stringText (raw : List UInt8) : Option String :=
  (unescape [] raw).bind fun bytes => String.fromUTF8? ⟨bytes.toArray⟩

/-! ### Reading -/

/-- How far a number has been read. -/
inductive NumberPart where
  | minus | zero | digits | point | fraction | exponentMark | exponentSign | exponent
  deriving DecidableEq, Repr

namespace NumberPart

/-- Whether a number may end here. -/
def isWhole : NumberPart → Bool
  | .zero | .digits | .fraction | .exponent => true
  | _ => false

/-- Reads on in a number; `none` when the byte does not belong to it. -/
def step (p : NumberPart) (b : UInt8) : Option NumberPart :=
  let digit := 0x30 ≤ b ∧ b ≤ 0x39
  let mark := b = 0x65 ∨ b = 0x45
  match p with
  | .minus => if b = 0x30 then some .zero else if digit then some .digits else none
  | .zero => if b = 0x2E then some .point else if mark then some .exponentMark else none
  | .digits =>
    if digit then some .digits
    else if b = 0x2E then some .point
    else if mark then some .exponentMark
    else none
  | .point => if digit then some .fraction else none
  | .fraction => if digit then some .fraction else if mark then some .exponentMark else none
  | .exponentMark =>
    if digit then some .exponent
    else if b = 0x2B ∨ b = 0x2D then some .exponentSign
    else none
  | .exponentSign => if digit then some .exponent else none
  | .exponent => if digit then some .exponent else none

end NumberPart

/-- The word that is open while a JSON text is read. Bytes are kept last one first. -/
inductive Open where
  /-- No word is open. -/
  | between
  /-- One of the three names, the bytes that must still follow, and what the name means. -/
  | name (missing : List UInt8) (meaning : Lexeme)
  /-- A number. -/
  | number (part : NumberPart) (text : List UInt8)
  /-- A string. -/
  | string (raw : List UInt8)
  /-- A string, after a backslash. -/
  | escape (raw : List UInt8)
  /-- A string, inside a code unit with this many digits to come. -/
  | unit (missing : Nat) (raw : List UInt8)

/-- A reading of a JSON text: the words so far, last one first, and the open one. -/
structure Reading where
  words : List Lexeme
  current : Open

/-- The text of ASCII bytes kept last one first. -/
def asciiText (bytes : List UInt8) : String :=
  String.ofList (bytes.reverse.map fun b => Char.ofNat b.toNat)

/-- Reads a byte outside of words. -/
def Reading.start (words : List Lexeme) (b : UInt8) : Option Reading :=
  match b with
  | 0x20 | 0x09 | 0x0A | 0x0D => some ⟨words, .between⟩
  | 0x7B => some ⟨.openObject :: words, .between⟩
  | 0x7D => some ⟨.closeObject :: words, .between⟩
  | 0x5B => some ⟨.openArray :: words, .between⟩
  | 0x5D => some ⟨.closeArray :: words, .between⟩
  | 0x3A => some ⟨.colon :: words, .between⟩
  | 0x2C => some ⟨.comma :: words, .between⟩
  | 0x22 => some ⟨words, .string []⟩
  | 0x6E => some ⟨words, .name [0x75, 0x6C, 0x6C] .null⟩
  | 0x74 => some ⟨words, .name [0x72, 0x75, 0x65] (.bool true)⟩
  | 0x66 => some ⟨words, .name [0x61, 0x6C, 0x73, 0x65] (.bool false)⟩
  | 0x2D => some ⟨words, .number .minus [b]⟩
  | 0x30 => some ⟨words, .number .zero [b]⟩
  | _ => if 0x31 ≤ b ∧ b ≤ 0x39 then some ⟨words, .number .digits [b]⟩ else none

/-- Reads a byte. -/
def Reading.step (r : Reading) (b : UInt8) : Option Reading :=
  match r.current with
  | .between => Reading.start r.words b
  | .name missing meaning =>
    match missing with
    | [] => none
    | [m] => if b = m then some ⟨meaning :: r.words, .between⟩ else none
    | m :: more => if b = m then some ⟨r.words, .name more meaning⟩ else none
  | .number part text =>
    match part.step b with
    | some next => some ⟨r.words, .number next (b :: text)⟩
    | none =>
      if part.isWhole then Reading.start (.number (asciiText text) :: r.words) b else none
  | .string raw =>
    if b = 0x22 then some ⟨.string (stringText raw.reverse) :: r.words, .between⟩
    else if b = 0x5C then some ⟨r.words, .escape (b :: raw)⟩
    else if b < 0x20 then none
    else some ⟨r.words, .string (b :: raw)⟩
  | .escape raw =>
    if b = 0x75 then some ⟨r.words, .unit 4 (b :: raw)⟩
    else if (shortEscape? b).isSome then some ⟨r.words, .string (b :: raw)⟩
    else none
  | .unit missing raw =>
    match hexDigit? b with
    | none => none
    | some _ =>
      if missing ≤ 1 then some ⟨r.words, .string (b :: raw)⟩
      else some ⟨r.words, .unit (missing - 1) (b :: raw)⟩

/-- The words of a text, when no word is left open. -/
def Reading.finish (r : Reading) : Option (List Lexeme) :=
  match r.current with
  | .between => some r.words.reverse
  | .number part text =>
    if part.isWhole then some (.number (asciiText text) :: r.words).reverse else none
  | _ => none

/-- The words of a JSON text. -/
def lexemes? (bytes : List UInt8) : Option (List Lexeme) :=
  (bytes.foldlM Reading.step ⟨[], .between⟩).bind Reading.finish

/-! ### Writing -/

/-- A hexadecimal digit. -/
def hexChar (n : Nat) : Char :=
  if n < 10 then Char.ofNat (0x30 + n) else Char.ofNat (0x57 + n)

/-- What stands for one character inside a string. -/
def escapeChar (c : Char) : String :=
  match c with
  | '"' => "\\\""
  | '\\' => "\\\\"
  | '\x08' => "\\b"
  | '\x0C' => "\\f"
  | '\n' => "\\n"
  | '\r' => "\\r"
  | '\t' => "\\t"
  | _ =>
    if c.toNat < 0x20 then
      "\\u00" ++ (hexChar (c.toNat / 16)).toString ++ (hexChar (c.toNat % 16)).toString
    else c.toString

/-- The string literal of a text. -/
def quote (s : String) : String :=
  s.foldl (fun out c => out ++ escapeChar c) "\"" ++ "\""

/-- The text of a lexeme. -/
def Lexeme.text : Lexeme → String
  | .openObject => "\x7b"
  | .closeObject => "\x7d"
  | .openArray => "["
  | .closeArray => "]"
  | .colon => ":"
  | .comma => ","
  | .null => "null"
  | .bool true => "true"
  | .bool false => "false"
  | .number text => text
  | .string text => quote (text.getD "")

/-- The text of lexemes without blanks. -/
def compact (words : List Lexeme) : String :=
  words.foldl (fun out w => out ++ w.text) ""

/-- A new line at a depth, two spaces a level. -/
def newLine (depth : Nat) : String :=
  "\n" ++ "".pushn ' ' (2 * depth)

/-- Writes lexemes with one item a line, added to `out`; `depth` levels are open. -/
def layout (out : String) (depth : Nat) : List Lexeme → String
  | [] => out
  | .openObject :: .closeObject :: rest => layout (out ++ "\x7b\x7d") depth rest
  | .openArray :: .closeArray :: rest => layout (out ++ "[]") depth rest
  | .openObject :: rest => layout (out ++ "\x7b" ++ newLine (depth + 1)) (depth + 1) rest
  | .openArray :: rest => layout (out ++ "[" ++ newLine (depth + 1)) (depth + 1) rest
  | .closeObject :: rest => layout (out ++ newLine (depth - 1) ++ "\x7d") (depth - 1) rest
  | .closeArray :: rest => layout (out ++ newLine (depth - 1) ++ "]") (depth - 1) rest
  | .comma :: rest => layout (out ++ "," ++ newLine depth) depth rest
  | .colon :: rest => layout (out ++ ": ") depth rest
  | word :: rest => layout (out ++ word.text) depth rest

/-- The text of lexemes with one item a line, indented by two spaces a level. -/
def pretty (words : List Lexeme) : String :=
  layout "" 0 words

end TableParser.Json
