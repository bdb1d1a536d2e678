import TableParser.Program.Inputs
import TableParser.Program.Path
import TableParser.Sample.Source
import TableParser.Tree.Json
/-!
The program that parses one input by both strategies, compares the trees and writes one of them as
JSON. The input is the file that the first argument names, or a random document of
`PARSE_DEMO_LEN` bytes or more.
-/

namespace TableParser.Contrast

open Program (printLine warn timed)

/-- The text of a file, and what to call it. -/
def fromFile (path : String) : Report (String × String) := do
  let source ← Report.file (some ("reading " ++ path)) (← Program.readText path)
  let (size, ms) ← timed fun _ => source.utf8ByteSize
  printLine s!"Input: {path} ({size} bytes) | load {ms} ms"
  return (source, "file:" ++ path)

/-- A random document, which is also kept in a file. -/
def generated (env : Environment) : Report (String × String) := do
  let target := env.number "PARSE_DEMO_LEN" 0x10000000000000000 5000
  let seed := env.number "PARSE_DEMO_SEED" 0x10000000000000000 42
  let (source, ms) ← timed fun _ =>
    ((Sample.valid Words.dice target).run (.chaCha seed.toUInt64)).1
  let size := source.utf8ByteSize
  let path := s!"fuzz-cases/parse_demo_seed{seed}_len{size}.cfg"
  let _ ← Program.makeDirs "fuzz-cases"
  match ← Program.writeText path source with
  | .ok () => printLine ("[parse_demo] saved " ++ path)
  | .error e => warn s!"[parse_demo] warning: failed to write {path}: {e.message}"
  printLine s!"Input: generated (len={size} bytes) | gen {ms} ms [seed={seed}]"
  return (source, "generated")

/-- The line of a tree. -/
def summary (tree : Option Node) (ms : String) : String :=
  let nodes := tree.elim 0 Node.count
  let errors := tree.elim 0 fun n => n.errors.length
  s!"{ms} ms | nodes = {nodes} | errors = {errors}"

/-- The program. -/
def report (env : Environment) (args : List String) : Report UInt32 := do
  let (source, label) ← match args with
    | path :: _ => fromFile path
    | [] => generated env
  let t ← Report.table (some "loading grammar tables") (← loadFromEnvironment env)
  let (ll, llTime) ← timed fun _ => parse t .predictive env.parseOptions source
  let ll ← Report.table none ll
  let (lalr, lalrTime) ← timed fun _ => parse t .shiftReduce env.parseOptions source
  let lalr ← Report.table none lalr
  printLine ("LL(1):   " ++ summary ll llTime)
  printLine ("LALR(1): " ++ summary lalr lalrTime)
  let same := ll == lalr
  printLine (s!"[parse_demo] {label}: trees " ++ if same then "match ✅" else "differ ❌")
  let json := lalr.elim "null" Node.prettyText
  match env "PARSE_DEMO_OUT" with
  | some target =>
    Report.file (some ("writing " ++ target)) (← Program.writeText target json)
    printLine ("[parse_demo] wrote " ++ target)
  | none => printLine json
  return if same then 0 else 1

end TableParser.Contrast
