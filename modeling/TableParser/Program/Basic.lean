import TableParser.Grammar.Error
import TableParser.Program.Path
/-!
Command-line programs as values.

A `Program` is a tree of requests to the world, each with what to do with the answer. The same
program can be performed by the system or run on a `Session`, which holds its files and output as
plain data. `Report` adds failure: a chain of messages, the outermost first.
-/

namespace TableParser

/-- What a path can lead to. -/
inductive EntryKind where
  | file | directory
  deriving DecidableEq, Repr

/-- A program that ends with a result. -/
inductive Program (α : Type) where
  /-- Ends. -/
  | done (result : α)
  /-- Writes to the standard output. -/
  | out (text : String) (next : Unit → Program α)
  /-- Writes to the standard error. -/
  | err (text : String) (next : Unit → Program α)
  /-- Asks for the bytes of a file. -/
  | readFile (path : String) (next : Except FileError (List UInt8) → Program α)
  /-- Makes a file with these bytes. -/
  | writeFile (path : String) (bytes : List UInt8) (next : Except FileError Unit → Program α)
  /-- Makes a directory. -/
  | makeDir (path : String) (next : Except FileError Unit → Program α)
  /-- Asks for the names in a directory. -/
  | listDir (path : String) (next : Except FileError (List String) → Program α)
  /-- Asks what a path leads to. -/
  | status (path : String) (next : Option EntryKind → Program α)
  /-- Asks for the time of the last change of a file, in seconds. -/
  | changedAt (path : String) (next : Nat → Program α)
  /-- Asks for the time, in nanoseconds from some point on. -/
  | clock (next : Nat → Program α)

namespace Program

variable {α β : Type}

/-- Goes on after a program with its result. -/
def andThen (f : α → Program β) : Program α → Program β
  | .done a => f a
  | .out text next => .out text fun u => andThen f (next u)
  | .err text next => .err text fun u => andThen f (next u)
  | .readFile path next => .readFile path fun r => andThen f (next r)
  | .writeFile path bytes next => .writeFile path bytes fun r => andThen f (next r)
  | .makeDir path next => .makeDir path fun r => andThen f (next r)
  | .listDir path next => .listDir path fun r => andThen f (next r)
  | .status path next => .status path fun k => andThen f (next k)
  | .changedAt path next => .changedAt path fun n => andThen f (next n)
  | .clock next => .clock fun n => andThen f (next n)

instance : Monad Program where
  pure := .done
  bind p f := andThen f p

/-- Writes to the standard output. -/
def print (text : String) : Program Unit := .out text .done

/-- Writes a line to the standard output. -/
def printLine (text : String) : Program Unit := print (text ++ "\n")

/-- Writes a line to the standard error. -/
def warn (text : String) : Program Unit := .err (text ++ "\n") .done

/-- The bytes of a file. -/
def read (path : String) : Program (Except FileError (List UInt8)) := .readFile path .done

/-- The text of a file. -/
def readText (path : String) : Program (Except FileError String) := do
  return (← read path).bind fun bytes =>
    match Utf8.decode bytes with
    | .ok s => .ok s
    | .error _ => .error .notText

/-- Makes a file with these bytes. -/
def write (path : String) (bytes : List UInt8) : Program (Except FileError Unit) :=
  .writeFile path bytes .done

/-- Makes a file with this text. -/
def writeText (path text : String) : Program (Except FileError Unit) :=
  write path (Utf8.encode text)

/-- The names in a directory. -/
def names (path : String) : Program (Except FileError (List String)) := .listDir path .done

/-- Whether a path leads to something. -/
def isThere (path : String) : Program Bool := .status path fun k => .done k.isSome

/-- Whether a path leads to a directory. -/
def isDirectory (path : String) : Program Bool := .status path fun k => .done (k = some .directory)

/-- Makes a directory; one that is there already will do. -/
def provideDir (path : String) : Program (Except FileError Unit) :=
  .makeDir path fun r => do
    match r with
    | .ok () => return .ok ()
    | .error e => return if ← isDirectory path then .ok () else .error e

/-- Makes the first of the directories, each below the next; where it finds no place for it, it
makes the others first. -/
def provideDirs : List String → Program (Except FileError Unit)
  | [] => return .ok ()
  | path :: above => do
    match ← provideDir path with
    | .error .notFound =>
      match ← provideDirs above with
      | .ok () => provideDir path
      | .error e => return .error e
    | r => return r

/-- Makes a directory and those above it. -/
def makeDirs (path : String) : Program (Except FileError Unit) := provideDirs (Path.ancestors path)

/-- Nanoseconds as milliseconds with three places. -/
def milliseconds (nanoseconds : Nat) : String :=
  let micros := nanoseconds / 1000
  let fraction := (micros % 1000).repr
  (micros / 1000).repr ++ "." ++ "".pushn '0' (3 - fraction.length) ++ fraction

/-- A value, and how long it took to compute, in milliseconds. -/
def timed (f : Unit → α) : Program (α × String) :=
  .clock fun before =>
    let a := f ()
    .clock fun after => .done (a, milliseconds (after - before))

end Program

/-! ### Failure -/

/-- Why a program failed: messages, each caused by the next. -/
structure Failure where
  message : String
  causes : List String := []
  deriving DecidableEq, Repr

namespace Failure

/-- The failure of a file error. -/
def ofFile (e : FileError) : Failure := { message := e.message }

/-- The failure of a table error. -/
def ofTable (e : TableError) : Failure := { message := e.message, causes := e.cause?.toList }

/-- A failure seen from further out. -/
def within (context : String) (f : Failure) : Failure :=
  { message := context, causes := f.message :: f.causes }

/-- A cause, its further lines indented like the first; one of several is numbered. -/
def causeText (number : Option Nat) (cause : String) : String :=
  match number with
  | none => "    " ++ cause.replace "\n" "\n    "
  | some n =>
    "".pushn ' ' (5 - n.repr.length) ++ n.repr ++ ": " ++ cause.replace "\n" "\n       "

/-- The causes, a line each. -/
def causesText (causes : List String) : String :=
  let numbered := 1 < causes.length
  String.join (causes.zipIdx.map fun (c, n) =>
    "\n" ++ causeText (if numbered then some n else none) c)

/-- The report of a failure. -/
def report (f : Failure) : String :=
  "Error: " ++ f.message
    ++ (if f.causes.isEmpty then "" else "\n\nCaused by:" ++ causesText f.causes) ++ "\n"

end Failure

/-- A program that may fail. -/
abbrev Report := ExceptT Failure Program

namespace Report

variable {α : Type}

/-- Does part of the work that cannot fail. -/
def lift (p : Program α) : Report α := ExceptT.lift p

/-- The result of file work, or its failure in a context. -/
def file (context : Option String) (r : Except FileError α) : Report α :=
  match r with
  | .ok a => pure a
  | .error e =>
    let f := Failure.ofFile e
    throw (context.elim f fun c => f.within c)

/-- The result of table work, or its failure in a context. -/
def table (context : Option String) (r : Except TableError α) : Report α :=
  match r with
  | .ok a => pure a
  | .error e =>
    let f := Failure.ofTable e
    throw (context.elim f fun c => f.within c)

/-- The exit code of a program, a failure being reported on the standard error. -/
def exitCode (p : Report UInt32) : Program UInt32 := do
  match ← p.run with
  | .ok code => return code
  | .error f => .err f.report fun _ => .done 1

end Report

end TableParser
