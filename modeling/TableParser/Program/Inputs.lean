import TableParser.Grammar.Asset.Bytes
import TableParser.Grammar.Script
import TableParser.Program.Basic
import TableParser.Program.Settings
/-!
Grammars in files, and what all programs read: a grammar from a file or the built-in one.
-/

namespace TableParser

/-- The tables of a grammar file. -/
def loadFile (path : String) : Program (Except TableError Tables) := do
  match ← Program.read path with
  | .ok bytes => return Tables.loadBytes bytes
  | .error e => return .error (.io e)

/-- Makes a file with the compact form of tables; tables without one leave the files alone. -/
def saveCompact (path : String) (t : Tables) : Program (Except TableError Unit) := do
  match Compact.encode t with
  | .ok bytes => return (← Program.write path bytes).mapError .io
  | .error e => return .error e

/-- Makes a file with the JSON form of tables, one item a line. -/
def saveJson (path : String) (t : Tables) : Program (Except TableError Unit) := do
  return (← Program.writeText path t.toJson.prettyText).mapError .io

/-- The tables of the file that `TABULA_TABLES` names, or else of the built-in grammar. -/
def loadFromEnvironment (env : Environment) : Program (Except TableError Tables) :=
  match env "TABULA_TABLES" with
  | none | some "" => return .ok Script.tables
  | some path => loadFile path

/-- A text filled up with blanks on the left. -/
def padLeft (width : Nat) (s : String) : String := "".pushn ' ' (width - s.length) ++ s

/-- A text filled up with blanks on the right. -/
def padRight (width : Nat) (s : String) : String := s.pushn ' ' (width - s.length)

end TableParser
