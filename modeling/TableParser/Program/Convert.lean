import TableParser.Program.Inputs
import TableParser.Program.Path
/-!
The program that turns a grammar into its compact form. The first argument names the grammar file
(the built-in grammar without it), the second the file to make. The new file is read back and
compared; `GEN_TABLES_JSON` names a file for the JSON form.
-/

namespace TableParser.Convert

open Program (printLine)

/-- The line that counts symbols and rules. -/
def symbolLine (t : Tables) : String :=
  s!"[gen_tables] symbols = {t.symbols.size} ({t.nonTerminals} non-terminals, "
    ++ s!"{t.terminals} terminals), rules = {t.rules.size}"

/-- The line that counts the parts of the character automaton. -/
def automatonLine (t : Tables) : String :=
  s!"[gen_tables] DFA: {t.automaton.states.size} states, {t.edgeCount} edges, "
    ++ s!"{t.rangeCount} ranges, {t.blockEndList.length} block ends"

/-- The line that counts the predictions. -/
def predictionLine (t : Tables) : String :=
  match t.prediction with
  | some p => s!"[gen_tables] LL(1): {p.entries.length} entries"
  | none => "[gen_tables] LL(1): none"

/-- The line that counts the parts of the shift-reduce table. -/
def shiftReduceLine (t : Tables) : String :=
  match t.shiftReduce with
  | some sr =>
    s!"[gen_tables] LALR(1): {sr.states} states, {sr.actions.entries.length} actions, "
      ++ s!"{sr.gotos.entries.length} gotos"
  | none => "[gen_tables] LALR(1): none"

/-- The lines that count what is in the tables. -/
def statistics (t : Tables) : List String :=
  [symbolLine t, automatonLine t, predictionLine t, shiftReduceLine t]

/-- The grammar and where it is from. -/
def grammar (args : List String) : Report (Tables × String) := do
  match args with
  | path :: _ => return (← Report.table (some ("loading " ++ path)) (← loadFile path), path)
  | [] => return (Script.tables, "<built-in>")

/-- Makes the compact file and gives its length, after reading it back. -/
def writeCompact (t : Tables) (path : String) : Report Nat := do
  Report.table (some ("writing " ++ path)) (← saveCompact path t)
  let written ← Report.file none (← Program.read path)
  let back ← Report.table (some "re-reading compact tables") (Compact.decode written)
  let again ← Report.table none (Compact.encode back)
  if again ≠ written then throw { message := "compact tables did not survive a round trip" }
  return written.length

/-- The program. -/
def report (env : Environment) (args : List String) : Report UInt32 := do
  let (t, origin) ← grammar args
  let path := (args[1]?).getD "tables/script.bin"
  printLine s!"[gen_tables] grammar {Quoted.encode t.name} from {origin}"
  for line in statistics t do printLine line
  match Path.parent? path with
  | some parent => Report.file (some ("creating " ++ parent)) (← Program.makeDirs parent)
  | none => pure ()
  let length ← writeCompact t path
  printLine s!"[gen_tables] wrote {path} ({length} bytes)"
  match env "GEN_TABLES_JSON" with
  | some target =>
    Report.table (some ("writing " ++ target)) (← saveJson target t)
    printLine ("[gen_tables] wrote " ++ target)
  | none => pure ()
  return 0

end TableParser.Convert
