import TableParser.Grammar.Symbol
import TableParser.Text.Quoted
import TableParser.Text.Utf8
/-!
Why a grammar cannot be loaded or used.

These are the only errors of the library: scanning and parsing report bad input as error tokens and
error nodes. Each cause is a constructor; `TableError.message` holds the wording.
-/

namespace TableParser

/-- Why a file cannot be read or written. -/
inductive FileError where
  | notFound | exists | notDirectory | isDirectory | nameTooLong | notText
  | other (message : String)
  deriving DecidableEq, Repr

/-- The sentence that reports a file error. -/
def FileError.message : FileError → String
  | .notFound => "No such file or directory (os error 2)"
  | .exists => "File exists (os error 17)"
  | .notDirectory => "Not a directory (os error 20)"
  | .isDirectory => "Is a directory (os error 21)"
  | .nameTooLong => "File name too long (os error 36)"
  | .notText => "stream did not contain valid UTF-8"
  | .other m => m

/-- Why a grammar cannot be loaded or used. -/
inductive TableError where
  /-- A file could not be read or written. -/
  | io (cause : FileError)
  /-- The text is no JSON, or its values are not those of a grammar. -/
  | json
  /-- A string of the compact form is no text. -/
  | utf8 (fault : Utf8.Fault)
  /-- The compact form does not start with its mark. -/
  | badMagic
  /-- The grammar states another format. -/
  | unknownFormat (format : String)
  /-- The grammar states another version. -/
  | unsupportedVersion (found supported : UInt32)
  /-- The compact form ends inside the named part. -/
  | truncated (part : String)
  /-- The named count does not fit. -/
  | overflow (count : String)
  /-- A number of the compact form is no character. -/
  | invalidChar (code : UInt32)
  /-- A reference points past the end of what it refers to. -/
  | outOfRange (what : String) (id limit : Nat)
  /-- A symbol has the wrong kind for its role. -/
  | wrongKind (name : String) (id : SymbolId) (expected : String)
  /-- A non-terminal comes after another kind of symbol. -/
  | layout (name : String) (id : SymbolId) (count : Nat)
  /-- Two symbols have one name. -/
  | duplicateName (name : String)
  /-- A block end would never end. -/
  | emptyTerminator (name : String)
  /-- A prediction expands a non-terminal by a rule of another one. -/
  | ruleMismatch (row : String) (rule : RuleId) (lhs : String)
  /-- The grammar has no LL(1) table. -/
  | missingPrediction (grammar : String)
  /-- The grammar has no LALR(1) table. -/
  | missingShiftReduce (grammar : String)
  deriving DecidableEq, Repr

namespace TableError

/-- A code point in upper-case hexadecimal, at least four digits wide. -/
def codePoint (n : Nat) : String :=
  let digits := (Nat.toDigits 16 n).map Char.toUpper
  String.ofList (List.replicate (4 - digits.length) '0' ++ digits)

/-- The sentence that reports an error. -/
def message : TableError → String
  | .io e => "i/o error: " ++ e.message
  | .json => "malformed JSON table asset"
  | .utf8 f => "invalid UTF-8 in compact tables: " ++ f.message
  | .badMagic => "bad magic in compact tables .bin"
  | .unknownFormat f => s!"not a tabula grammar asset (format {Quoted.encode f})"
  | .unsupportedVersion found supported =>
    s!"unsupported table version {found} (this build reads {supported})"
  | .truncated part => "truncated compact tables: " ++ part
  | .overflow count => count ++ " exceeds the compact format limit"
  | .invalidChar code => s!"invalid char U+{codePoint code.toNat} in compact tables"
  | .outOfRange what id limit => s!"{what} {id} out of range (limit {limit})"
  | .wrongKind name id expected =>
    s!"symbol {Quoted.encode name} ({id.index}) must be {expected}"
  | .layout name id count =>
    s!"non-terminals must occupy ids 0..{count}, but {Quoted.encode name} ({id.index}) does not"
  | .duplicateName name => s!"duplicate symbol name {Quoted.encode name}"
  | .emptyTerminator name => s!"block end for {Quoted.encode name} has an empty terminator"
  | .ruleMismatch row rule lhs =>
    s!"LL(1) row {Quoted.encode row} references rule {rule.index} whose left side is "
      ++ Quoted.encode lhs
  | .missingPrediction grammar => s!"grammar {Quoted.encode grammar} has no LL(1) table"
  | .missingShiftReduce grammar => s!"grammar {Quoted.encode grammar} has no LALR(1) table"

/-- What an error was caused by in turn. -/
def cause? : TableError → Option String
  | .io e => some e.message
  | .utf8 f => some f.message
  | _ => none

end TableError

end TableParser
