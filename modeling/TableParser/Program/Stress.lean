import TableParser.Json.Record
import TableParser.Program.Inputs
import TableParser.Program.Path
import TableParser.Sample.Source
/-!
The program that tests the engines against each other.

It replays the input that `FUZZ_INPUT` names, or runs the example files and then random documents. A
check asks of an input that its tokens give it back, that both trees with hidden tokens give it
back, and, for a valid document, that there are no errors and both trees are alike. Beside an
example file may stand a file with the tokens it should have.
-/

namespace TableParser.Stress

open Program (warn timed)

/-! ### Diagnostics -/

/-- The number of bytes that two texts have in common at the front. -/
def firstDifference (a b : String) : Nat :=
  let common := ((Utf8.encode a).zip (Utf8.encode b)).takeWhile fun (x, y) => x == y
  common.length

/-- The characters of a text with their offsets. -/
def charOffsets (s : String) : List (Nat × Char) :=
  (s.toList.foldl (fun (done, offset) c => ((offset, c) :: done, offset + c.utf8Size))
    (([] : List (Nat × Char)), 0)).1.reverse

/-- The line and column of an offset. -/
def lineColumn (s : String) (offset : Nat) : Nat × Nat :=
  let before := (charOffsets s).takeWhile fun (i, _) => i < offset
  let p := before.foldl (fun p (_, c) => p.step c) Position.start
  (p.line, p.column)

/-- The text around an offset, 24 bytes to each side or a little more. -/
def window (s : String) (offset : Nat) : String :=
  let inside := (charOffsets s).filter fun (i, c) => offset - 24 < i + c.utf8Size ∧ i < offset + 24
  String.ofList (inside.map Prod.snd)

/-- Shows the input near an offset. -/
def showNear (s : String) (offset : Nat) : Program Unit := do
  let (line, column) := lineColumn s offset
  warn s!"--- source near byte {offset} (line {line}, col {column}) ---"
  warn (Quoted.encode (window s offset))

/-- A leaf in a difference of trees. -/
def leafText (n : Option Node) : String :=
  match n with
  | none => "None"
  | some n =>
    let value := n.label.value.elim "None" fun v => "Some(" ++ Quoted.encode v ++ ")"
    "Some((" ++ Quoted.encode n.label.symbol ++ ", " ++ value ++ "))"

/-- What two leaves are compared by. -/
def leafKey (n : Option Node) : Option (String × Option String) :=
  n.map fun n => (n.label.symbol, n.label.value)

/-- A number with at least six digits. -/
def sixDigits (n : Nat) : String := "".pushn '0' (6 - n.repr.length) ++ n.repr

/-- Shows the leaves of two trees from the first difference on. -/
def showLeaves (a b : Option Node) : Program Unit := do
  let left := (a.elim [] Node.leaves).toArray
  let right := (b.elim [] Node.leaves).toArray
  let shorter := min left.size right.size
  let start := ((List.range shorter).find? fun i =>
    leafKey left[i]? != leafKey right[i]?).getD shorter
  warn s!"--- leaves from #{start} (LL | LALR) ---"
  for k in List.range (min 6 (max left.size right.size - start)) do
    let i := start + k
    let mark := if leafKey left[i]? == leafKey right[i]? then "✅" else "❌"
    warn s!"{mark} #{sixDigits i} {leafText left[i]?} | {leafText right[i]?}"

/-! ### Expected tokens -/

/-- A token that an example should have: the name of its symbol and its text. -/
abbrev Expected := String × String

/-- Reads an expected token. -/
def expectedOfJson? (v : Json) : Option Expected := do
  match ← Json.fields? ["kind", "text"] v with
  | [kind, text] =>
    return (← Json.Field.required Json.asText? kind, ← Json.Field.required Json.asText? text)
  | _ => none

/-- Reads the expected tokens of an example. -/
def expectedTokens? (v : Json) : Option (List Expected) := do
  match ← Json.fields? ["tokens"] v with
  | [tokens] => Json.Field.required (Json.asList? expectedOfJson?) tokens
  | _ => none

/-- The expected tokens beside an example, from the first of the two files that is there. -/
def loadExpected (path : String) : Program (Option (List Expected)) := do
  for extension in ["tokens.json", "golden.json"] do
    let beside := Path.withExtension path extension
    if ← Program.isThere beside then
      match ← Program.readText beside with
      | .error _ => return none
      | .ok text =>
        match (Json.parse? (Utf8.encode text)).bind expectedTokens? with
        | some tokens => return some tokens
        | none =>
          warn s!"[golden] failed to parse {beside}: not a list of tokens"
          return none
  return none

/-- Whether an input has the expected tokens, hidden ones aside. -/
def checkExpected (t : Tables) (source : String) (expected : List Expected) : Program Bool := do
  let shown := (tokenize t source).filter fun tok =>
    !t.isHidden tok.symbol && tok.symbol ≠ t.endOfStream
  let found := shown.map fun tok => (t.nameOf tok.symbol, tok.text)
  if found.length ≠ expected.length then
    warn s!"[golden] count mismatch: got={found.length} expected={expected.length}"
    return false
  match (found.zip expected).zipIdx.find? fun ((got, want), _) => got ≠ want with
  | none => return true
  | some ((got, want), i) =>
    warn (s!"[golden] mismatch at {i}:\n  got:  kind={got.1} text={Quoted.encode got.2}\n"
      ++ s!"  want: kind={want.1} text={Quoted.encode want.2}")
    return false

/-! ### One input -/

/-- What scanning an input took and gave. -/
structure Scan where
  time : String
  tokens : Nat
  errors : Nat

/-- Scans an input and checks that its tokens give it back. -/
def checkTokens (t : Tables) (source : String) : Program (Scan × Bool) := do
  let (tokens, time) ← timed fun _ => tokenize t source
  let errors := (tokens.filter fun tok => tok.symbol = t.error).length
  let rebuilt := String.join (tokens.map Token.text)
  if rebuilt ≠ source then
    let i := firstDifference rebuilt source
    warn s!"[coverage] token texts diverge from input at byte {i}"
    showNear source i
  return (⟨time, tokens.length, errors⟩, rebuilt = source)

/-- The line of a strategy. -/
def strategyLine (label : String) (scan : Scan) (time : String) (errors : Nat) : String :=
  s!"[{label}] lex {scan.time} ms | parse {time} ms | tokens = {scan.tokens} "
    ++ s!"(lex errors {scan.errors}) | syntax errors = {errors}"

/-- Checks that a document without faults has no errors. -/
def checkErrors (label source : String) (errors : List Node) : Program Bool := do
  match errors with
  | [] => return true
  | first :: _ =>
    let p := first.label.position
    warn s!"[{label}] unexpected error at {p.line}:{p.column}"
    showNear source p.offset
    return false

/-- Checks that a tree with hidden tokens gives the input back. -/
def checkReconstruction (label source : String) (full : Option Node) : Program Bool := do
  let text := full.elim "" Node.sourceText
  if text ≠ source then
    let i := firstDifference text source
    warn s!"[{label}] reconstruction diverges at byte {i}"
    showNear source i
  return text = source

/-- Checks one strategy and gives its tree. Without its table there is nothing to check. -/
def checkStrategy (t : Tables) (source : String) (expectValid : Bool) (scan : Scan)
    (strategy : Strategy) : Program (Option (Option Node × Bool)) := do
  let label := strategy.label
  let (plain, time) ← timed fun _ => parse t strategy {} source
  match plain, parse t strategy { showHidden := true } source with
  | .ok tree, .ok full =>
    let errors := tree.elim [] Node.errors
    warn (strategyLine label scan time errors.length)
    let clean ← if expectValid then checkErrors label source errors else pure true
    let whole ← checkReconstruction label source full
    return some (tree, clean && whole)
  | .error e, _ | _, .error e =>
    warn s!"[{label}] {e.message}"
    return none

/-- Checks an input by both strategies, and against the expected tokens of an example. -/
def check (t : Tables) (source : String) (expectValid : Bool) (exampleFile : Option String) :
    Program Bool := do
  let (scan, tiled) ← checkTokens t source
  let some (ll, llOk) ← checkStrategy t source expectValid scan .predictive | return false
  let some (lalr, lalrOk) ← checkStrategy t source expectValid scan .shiftReduce | return false
  let alike := ll == lalr
  if expectValid && !alike then
    warn "[diff] LL(1) and LALR(1) trees differ"
    showLeaves ll lalr
  let ok := tiled && llOk && lalrOk && (alike || !expectValid)
  match exampleFile with
  | none => return ok
  | some path =>
    match ← loadExpected path with
    | some expected =>
      let matching ← checkExpected t source expected
      return ok && matching
    | none =>
      warn ("[golden] no sidecar found for " ++ path)
      return ok

/-! ### The inputs -/

/-- Splits a list at commas and colons. -/
def splitList (s : String) : List String :=
  (s.splitOn ",").flatMap fun part => part.splitOn ":"

/-- Whether a character counts as blank at the ends of a name. -/
def isBlank (c : Char) : Bool :=
  let n := c.toNat
  (0x09 ≤ n && n ≤ 0x0D) || n = 0x20 || n = 0x85 || n = 0xA0 || n = 0x1680
    || (0x2000 ≤ n && n ≤ 0x200A) || n = 0x2028 || n = 0x2029 || n = 0x202F || n = 0x205F
    || n = 0x3000

/-- A name without blanks at its ends. -/
def trimBlanks (s : String) : String :=
  String.ofList ((s.toList.dropWhile isBlank).reverse.dropWhile isBlank).reverse

/-- The files of a list that are there. -/
def listedExamples (list : String) : Program (List String) := do
  let mut found := []
  for part in splitList list do
    let path := trimBlanks part
    if path ≠ "" then
      if ← Program.isThere path then found := path :: found
  return found.reverse

/-- The example files: those listed, or else those of the directory, in the order of their names. -/
def examples (env : Environment) : Program (List String) := do
  let listed ← (env "FUZZ_EX").elim (pure []) listedExamples
  if listed ≠ [] then return listed
  let directory := (env "FUZZ_EX_DIR").getD "parser_tests"
  match ← Program.names directory with
  | .error _ => return []
  | .ok names =>
    let wanted := names.filter fun n =>
      (Path.extension? n).any fun e => e.map Char.toLower == "cfg"
    return (wanted.mergeSort fun a b => a ≤ b).map (Path.join directory)

/-- Runs the example files; gives whether all checks passed. -/
def runExamples (t : Tables) (paths : List String) : Program Bool := do
  for (path, i) in paths.zipIdx do
    match ← Program.readText path with
    | .ok source =>
      warn s!"[ex {i}] {path}"
      if !(← check t source false (some path)) then return false
    | .error e =>
      warn s!"[ex {i}] failed to read {path}: {e.message}"
      return false
  return true

/-- Keeps a random document in a file, with a note beside it on how it was made. -/
def saveCase (directory : String) (seed iteration : Nat) (source : String) :
    Program (Except FileError String) := do
  let size := source.utf8ByteSize
  let path := Path.join directory s!"case_s{seed}_i{iteration}_n{size}.cfg"
  match ← Program.writeText path source with
  | .error e => return .error e
  | .ok () =>
    let time ← .changedAt path .done
    let note := Json.record [("unix_ts", .nat time), ("seed", .nat seed), ("iter", .nat iteration),
      ("actual_bytes", .nat size),
      ("note", .text "Replay with: FUZZ_INPUT=<this file> cargo run --bin fuzz_parse")]
    let written ← Program.writeText (Path.withExtension path "json") (note.prettyText ++ "\n")
    return written.map fun _ => path

/-- How random documents are made. -/
structure Plan where
  length : Nat
  iterations : Nat
  seed : Nat
  noisy : Bool
  /-- Where documents are kept, if they are. -/
  keepIn : Option String

/-- The plan of the environment. -/
def plan (env : Environment) : Plan :=
  { length := env.number "FUZZ_LEN" 0x10000000000000000 100000
    iterations := env.number "FUZZ_ITERS" 0x10000000000000000 3
    seed := env.number "FUZZ_SEED" 0x10000000000000000 42
    noisy := env "FUZZ_NOISY" == some "1"
    keepIn := if env "FUZZ_SAVE" == some "1" then some ((env "FUZZ_DIR").getD "fuzz-cases")
      else none }

/-- Makes and checks random documents, from number `i` on; gives whether all checks passed. -/
def runRandom (t : Tables) (p : Plan) : (left i : Nat) → Words → Program Bool
  | 0, _, _ => return true
  | left + 1, i, words => do
    let document := if p.noisy then Sample.noisy Words.dice p.length
      else Sample.valid Words.dice p.length
    let (source, words) := document.run words
    warn s!"[fuzz] iter {i}: generated {source.utf8ByteSize} bytes"
    match p.keepIn with
    | some directory =>
      match ← saveCase directory p.seed i source with
      | .ok path => warn ("[save] wrote " ++ path)
      | .error e => warn ("[save] failed: " ++ e.message)
    | none => pure ()
    if ← check t source (!p.noisy) none then runRandom t p left (i + 1) words else return false

/-- Replays one input; gives the exit code. -/
def replay (t : Tables) (path : String) (noisy : Bool) : Program UInt32 := do
  warn ("[replay] reading " ++ path)
  match ← Program.readText path with
  | .error e =>
    warn s!"error: failed to read {path}: {e.message}"
    return 1
  | .ok source => return if ← check t source (!noisy) none then 0 else 1

/-- Runs the examples and then random documents; gives the exit code. -/
def runAll (t : Tables) (env : Environment) : Program UInt32 := do
  let paths ← examples env
  if paths ≠ [] then
    warn s!"[ex] running {paths.length} handcrafted example(s)…"
    if !(← runExamples t paths) then return 1
  let p := plan env
  warn s!"[fuzz] len={p.length} iters={p.iterations} seed={p.seed} noisy={p.noisy}"
  match p.keepIn with
  | some directory =>
    match ← Program.makeDirs directory with
    | .ok () => pure ()
    | .error e =>
      warn s!"error: failed to create {directory}: {e.message}"
      return 1
  | none => pure ()
  if !(← runRandom t p p.iterations 0 (.chaCha p.seed.toUInt64)) then return 1
  warn "[fuzz] all iterations passed ✅"
  return 0

/-- The program. -/
def run (env : Environment) : Program UInt32 := do
  match ← loadFromEnvironment env with
  | .error e =>
    warn ("error: failed to load grammar tables: " ++ e.message)
    return 1
  | .ok t =>
    match env "FUZZ_INPUT" with
    | some path => replay t path (plan env).noisy
    | none => runAll t env

end TableParser.Stress
