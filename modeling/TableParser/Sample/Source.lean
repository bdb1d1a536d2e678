import TableParser.Sample.Draw
/-!
Random documents of the built-in grammar.

`Sample.valid` draws statements until the document is long enough; between any two tokens stands at
least one blank, so that they never run together, and blocks nest at most four deep. `Sample.noisy`
damages such a document: characters are left out, doubled, or get a stray one before them.
-/

namespace TableParser.Sample

variable {σ : Type}

/-- Something drawn. -/
abbrev Gen (σ : Type) := StateM σ

/-- A number below `n`. -/
def below (d : Dice σ) (n : Nat) [Bound n] : Gen σ (Fin n) := fun s => d.below n s

/-- Yes or no. -/
def yes (d : Dice σ) (c : Chance) : Gen σ Bool := fun s => d.yes c s

/-- One of several things, all with one chance. -/
def oneOf {α : Type} (d : Dice σ) (first : α) (more : List α) : Gen σ α := do
  let i ← below d (more.length + 1)
  return (first :: more).get i

/-- Text drawn `n` times, added to `out`. -/
def repeated (piece : Gen σ String) : Nat → String → Gen σ String
  | 0, out => return out
  | n + 1, out => do repeated piece n (out ++ (← piece))

/-! ### Tokens -/

/-- A character of an alphabet. -/
def letter (d : Dice σ) (first : Char) (more : List Char) : Gen σ String := do
  return (← oneOf d first more).toString

/-- What a name goes on with. -/
def nameLetters : List Char := "bcdefghijklmnopqrstuvwxyz0123456789_.:".toList

/-- What a name starts with. -/
def nameStarts : List Char := "bcdefghijklmnopqrstuvwxyzABCDEFGHIJKLMNOPQRSTUVWXYZ_@".toList

/-- What a comment is made of. -/
def smallLetters : List Char := "bcdefghijklmnopqrstuvwxyz".toList

/-- What a quoted text is made of, besides escapes and newlines. -/
def textLetters : List Char := "bcdefghij KLMNOP 0123456789 \x7b\x7d=#<>!-.,;:".toList

/-- Digits. -/
def digitLetters : List Char := "123456789".toList

/-- At least one blank, or a comment with its newline. -/
def separator (d : Dice σ) : Gen σ String := do
  if ← yes d .eightPercent then
    let n ← below d 25
    return (← repeated (letter d 'a' smallLetters) n " # ") ++ "\n"
  else
    let n ← below d 3
    repeated (letter d ' ' ['\t', '\r', '\n']) (n + 1) ""

/-- An operator. -/
def specifier (d : Dice σ) : Gen σ String := do
  if ← yes d .twentieth then
    return if ← yes d .half then "==" else "!="
  else oneOf d "=" ["=", "=", "<", ">", "<=", ">="]

/-- A name. -/
def symbol (d : Dice σ) : Gen σ String := do
  let first ← letter d 'a' nameStarts
  let n ← below d 11
  repeated (letter d 'a' nameLetters) n first

/-- At least one and at most `limit` digits. -/
def digits (d : Dice σ) (limit : Nat) [Bound limit] : Gen σ String := do
  let n ← below d limit
  repeated (letter d '0' digitLetters) (n + 1) ""

/-- Sometimes a minus sign. -/
def sign (d : Dice σ) : Gen σ String := do
  return if ← yes d .fifth then "-" else ""

/-- A whole number. -/
def integer (d : Dice σ) : Gen σ String := do
  let s ← sign d
  return s ++ (← digits d 9)

/-- A number with a point. -/
def real (d : Dice σ) : Gen σ String := do
  let s ← sign d
  let whole ← digits d 5
  return s ++ whole ++ "." ++ (← digits d 5)

/-- A date. -/
def date (d : Dice σ) : Gen σ String := do
  let year ← digits d 4
  let month ← digits d 2
  return year ++ "." ++ month ++ "." ++ (← digits d 2)

/-- A piece of a quoted text. -/
def textPiece (d : Dice σ) : Gen σ String := do
  match (← below d 40).val with
  | 0 => return "\\\""
  | 1 => return "\\\\"
  | 2 => return "\n"
  | _ => letter d 'a' textLetters

/-- A quoted text. -/
def string (d : Dice σ) : Gen σ String := do
  let n ← below d 17
  return (← repeated (textPiece d) n "\"") ++ "\""

/-! ### Documents -/

/-- What a statement with an operator starts with. -/
def key (d : Dice σ) : Gen σ String := do
  match (← below d 10).val with
  | 0 => date d
  | 1 => string d
  | _ => symbol d

/-- A single-token value. -/
def scalar (d : Dice σ) : Gen σ String := do
  let n := (← below d 100).val
  if n < 30 then symbol d
  else if n < 55 then string d
  else if n < 80 then integer d
  else if n < 93 then real d
  else date d

/-- A piece and the separator after it. -/
def spaced (d : Dice σ) (piece : Gen σ String) : Gen σ String := do
  let text ← piece
  return text ++ (← separator d)

/-- A block, with up to four statements where there is room for any. -/
def block (d : Dice σ) (inner : Option (Gen σ String)) : Gen σ String := do
  let blank ← separator d
  match inner with
  | none => return "\x7b" ++ blank ++ "\x7d"
  | some statement =>
    let n ← below d 5
    return (← repeated (spaced d statement) n ("\x7b" ++ blank)) ++ "\x7d"

/-- What an operator applies to: now and then a block, where there is room for statements in it. -/
def value (d : Dice σ) (inner : Option (Gen σ String)) : Gen σ String := do
  if inner.isSome then
    if ← yes d .quarter then block d inner else scalar d
  else scalar d

/-- A statement, given the statements inside its blocks. -/
def statementOver (d : Dice σ) (inner : Option (Gen σ String)) : Gen σ String := do
  let n := (← below d 100).val
  if n < 70 then
    let left ← spaced d (key d)
    let operator ← spaced d (specifier d)
    return left ++ operator ++ (← value d inner)
  else if n < 90 then scalar d
  else block d inner

/-- A statement with room for blocks inside blocks so many times. -/
def statement (d : Dice σ) : (room : Nat) → Gen σ String
  | 0 => statementOver d none
  | room + 1 => statementOver d (some (statement d room))

/-- How deep blocks nest in blocks. -/
def maxDepth : Nat := 3

/-- Adds statements to `out` until it has `target` bytes, at most `fuel` of them. -/
def document (d : Dice σ) (target : Nat) : (fuel : Nat) → String → Gen σ String
  | 0, out => return out
  | fuel + 1, out => do
    if out.utf8ByteSize < target then
      document d target fuel (out ++ (← spaced d (statement d maxDepth)))
    else return out

/-- A document of at least `target` bytes. Each statement adds a byte or more, so there are at most
`target` of them. -/
def valid (d : Dice σ) (target : Nat) : Gen σ String :=
  document d target target ""

/-! ### Damage -/

/-- A stray character. -/
def noise (d : Dice σ) : Gen σ Char :=
  oneOf d '\"' ['\x7b', '\x7d', '=', '!', '-', '.', '#', '\\', '$', '%', 'é', '😀', '\x00']

/-- What becomes of a character. -/
def damage (d : Dice σ) (c : Char) : Gen σ String := do
  let n := (← below d 100).val
  if n < 3 then return ""
  else if n < 5 then return (c.toString).push c
  else if n < 8 then return (← noise d).toString.push c
  else return c.toString

/-- Damages characters one after the other, adding to `out`. -/
def damageAll (d : Dice σ) : List Char → String → Gen σ String
  | [], out => return out
  | c :: rest, out => do damageAll d rest (out ++ (← damage d c))

/-- A document with damage. -/
def noisy (d : Dice σ) (target : Nat) : Gen σ String := do
  let clean ← valid d target
  let out ← damageAll d clean.toList ""
  if ← yes d .threeTenths then return out.push (← noise d) else return out

end TableParser.Sample
