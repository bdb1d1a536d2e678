import TableParser.Tree.Builder
/-!
Settings from the environment.

A flag is off when its variable is `0` or `false`, in any case of letters, and on for every other
value; without the variable it has its default.
-/

namespace TableParser

/-- The variables of the environment. -/
abbrev Environment := String → Option String

namespace Environment

/-- The flag of a variable. -/
def flag (env : Environment) (name : String) (default : Bool) : Bool :=
  match env name with
  | some v => !(v == "0" || v.map Char.toLower == "false")
  | none => default

/-- The number below a bound that digits spell; a plus sign may stand before them. -/
def number? (bound : Nat) (text : String) : Option Nat :=
  let digits : List Char :=
    match text.toList with
    | '+' :: rest => rest
    | cs => cs
  let n : Nat := digits.foldl (fun n c => 10 * n + (c.toNat - '0'.toNat)) 0
  if digits ≠ [] ∧ digits.all Char.isDigit ∧ n < bound then some n else none

/-- The number of a variable below a bound; anything else gives the default. -/
def number (env : Environment) (name : String) (bound default : Nat) : Nat :=
  ((env name).bind (number? bound)).getD default

/-- How inputs are parsed: `TABULA_TRIM`, `TABULA_TRANSFORM` and `TABULA_SHOW_HIDDEN`. -/
def parseOptions (env : Environment) : ParseOptions :=
  { shape := {
      trim := env.flag "TABULA_TRIM" true
      transform := env.flag "TABULA_TRANSFORM" true }
    showHidden := env.flag "TABULA_SHOW_HIDDEN" false }

/-- The strategy of `TABULA_STRATEGY`; without a known name there it is LALR(1). -/
def strategy (env : Environment) : Strategy :=
  ((env "TABULA_STRATEGY").bind Strategy.ofName?).getD .shiftReduce

end Environment

end TableParser
