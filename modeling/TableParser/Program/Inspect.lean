import TableParser.Literal.Basic
import TableParser.Program.Inputs
import TableParser.Tree.Display
/-!
The program that shows what becomes of an input: its tokens, its tree and its literals. The input is
the file that the first argument names, or a sample.
-/

namespace TableParser.Inspect

open Program (printLine print warn timed)

/-- The input when none is named. -/
def sample : String :=
  "\n# sample settings\nname = \"Iron Province\"\nstart_date = 1444.11.11\n"
    ++ "speed = -3\nratio >= 1.5\ntags = \x7b \"x\" \"y\" \x7d\n"
    ++ "nested = \x7b depth = \x7b level = 2 \x7d \x7d\n"

/-- The line of a token. -/
def tokenLine (t : Tables) (tok : Token) : String :=
  "  " ++ padLeft 4 tok.position.line.repr ++ ":" ++ padRight 3 tok.position.column.repr ++ " "
    ++ padRight 10 (t.nameOf tok.symbol) ++ " " ++ Quoted.encode tok.text ++ "\n"

/-- The line of an error node. -/
def errorLine (n : Node) : String :=
  let p := n.label.position
  s!"[tabula] syntax error at {p.line}:{p.column}: " ++ Quoted.encode (n.label.value.getD "")

/-- Shows the tree of an input. -/
def showTree (t : Tables) (tree : Option Node) : Program Unit := do
  match tree with
  | none => printLine "(empty document)"
  | some n =>
    print ("TREE:\n" ++ n.display)
    let literals := n.leaves.filterMap (Literal.ofNode? t)
    printLine ("LITERALS: " ++ " ".intercalate (literals.map Literal.display))
    for e in n.errors do warn (errorLine e)

/-- The input and what to call it. -/
def input (args : List String) : Report (String × String) := do
  match args with
  | path :: _ =>
    let source ← Report.file (some ("reading " ++ path)) (← Program.readText path)
    return (source, path)
  | [] => return (sample, "sample")

/-- The program. -/
def report (env : Environment) (args : List String) : Report UInt32 := do
  let (source, label) ← input args
  let t ← Report.table (some "loading grammar tables") (← loadFromEnvironment env)
  let shown := (tokenize t source).filter fun tok => !t.isHidden tok.symbol
  print (s!"TOKENS ({label}):\n" ++ String.join (shown.map (tokenLine t)))
  let (tree, ms) ← timed fun _ => parse t env.strategy env.parseOptions source
  let tree ← Report.table none tree
  warn s!"[tabula] {env.strategy.label} parse {ms} ms"
  showTree t tree
  return 0

end TableParser.Inspect
