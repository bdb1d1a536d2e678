import TableParser.Json.Value
/-!
Typed reading of JSON values.

A reader answers `none` for a value that is not of its type. The rules for records are the ones by
which `serde_json` reads them. Records may be written as objects, by field name, or as arrays, by
field place. In an object, fields the record does not have are passed over, whatever they hold and
however deep it is nested, and none of its own may come twice; in an array, no item may be left
over. What a field that is left out means is for the field to say: see `Field`.
-/

namespace TableParser.Json

/-- A boolean. -/
def asBool? : Json → Option Bool
  | .bool b => some b
  | _ => none

/-- A string. -/
def asText? : Json → Option String
  | .string text => text
  | _ => none

/-- A string of exactly one character. -/
def asChar? (v : Json) : Option Char :=
  match (asText? v).map String.toList with
  | some [c] => some c
  | _ => none

/-- A natural number below a bound, written without sign, point or exponent. -/
def asNat? (bound : Nat) : Json → Option Nat
  | .number text =>
    if text.toList.all Char.isDigit then
      let n := text.toList.foldl (fun n c => 10 * n + (c.toNat - 0x30)) 0
      if n < bound then some n else none
    else none
  | _ => none

/-- The items of an array, each read by `item`. -/
def asList? {α : Type} (item : Json → Option α) : Json → Option (List α)
  | .array items => items.mapM item
  | _ => none

/-- A pair, written as an array of two items. -/
def asPair? {α β : Type} (first : Json → Option α) (second : Json → Option β) :
    Json → Option (α × β)
  | .array [a, b] => do return (← first a, ← second b)
  | _ => none

/-- The pairs of an object with plain values, in order. -/
def asTexts? : Json → Option (List (String × String))
  | .object fields => fields.mapM fun (k, v) => do return (← k, ← asText? v)
  | _ => none

/-- One of several named cases: a name alone, or an object whose one key is the name. -/
def asCase? : Json → Option (String × Option Json)
  | .string text => text.map fun name => (name, none)
  | .object [(key, v)] => key.map fun name => (name, some v)
  | _ => none

/-! ### Records -/

/-- A field of a record as written. -/
inductive Field where
  /-- The field has a value. -/
  | given (v : Json)
  /-- The record is an object without the field. -/
  | unnamed
  /-- The record is an array that ends before the field. -/
  | beyond

namespace Field

variable {α : Type}

/-- A field that must be there. -/
def required (read : Json → Option α) : Field → Option α
  | .given v => read v
  | _ => none

/-- A field with a value of its own when it is left out. -/
def withDefault (default : α) (read : Json → Option α) : Field → Option α
  | .given v => read v
  | _ => some default

/-- Reads `null` as nothing. -/
def nullable (read : Json → Option α) : Json → Option (Option α)
  | .null => some none
  | v => (read v).map some

/-- A field that may be `null`, or missing from an object, but not from an array. -/
def optional (read : Json → Option α) : Field → Option (Option α)
  | .given v => nullable read v
  | .unnamed => some none
  | .beyond => none

end Field

/-- The value of the one field with a name; the outer `none` when it comes twice. -/
def uniqueField? (fields : List (String × Json)) (name : String) : Option Field :=
  match fields.filter fun f => f.1 == name with
  | [] => some .unnamed
  | [f] => some (.given f.2)
  | _ => none

/-- The fields of a record in the order of their names. -/
def fields? (names : List String) : Json → Option (List Field)
  | .object fields => do
    let fields ← fields.mapM fun (k, v) => do return (← k, v)
    names.mapM (uniqueField? fields)
  | .array items =>
    if items.length ≤ names.length then
      some (items.map .given ++ List.replicate (names.length - items.length) .beyond)
    else none
  | _ => none

end TableParser.Json
