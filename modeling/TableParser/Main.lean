import TableParser.Program.Command
/-!
The command line: the first argument names the program, the others are its own.

A program is performed request by request; nothing is decided here.
-/

namespace TableParser.Console

/-- The number of a failure, which the system may give with a minus sign. -/
def number (code : UInt32) : UInt32 := min code (0 - code)

/-- The cause of a failed file operation. -/
def causeOf (e : IO.Error) : FileError :=
  match e with
  | .noFileOrDirectory .. => .notFound
  | .alreadyExists .. => .exists
  | .inappropriateType _ code _ => if number code = 21 then .isDirectory else .notDirectory
  | .invalidArgument _ code _ => if number code = 36 then .nameTooLong else .other e.toString
  | e => .other e.toString

/-- The result of a file operation, or the cause of its failure. -/
def attempt {α : Type} (act : IO α) : IO (Except FileError α) := do
  try return .ok (← act)
  catch e => return .error (causeOf e)

/-- The entry of a path, as the system has it. -/
def entryAt (path : String) : IO.FS.DirEntry := { root := path, fileName := "" }

/-- What a path leads to. -/
def kindOf (path : String) : IO (Option EntryKind) := do
  match ← attempt do return (← (entryAt path).root.metadata).type with
  | .ok .dir => return some .directory
  | .ok _ => return some .file
  | .error _ => return none

/-- Performs a program. -/
def perform {α : Type} : Program α → IO α
  | .done a => return a
  | .out text next => do
    (← IO.getStdout).putStr text
    perform (next ())
  | .err text next => do
    (← IO.getStderr).putStr text
    perform (next ())
  | .readFile path next => do
    perform (next (← attempt do return (← IO.FS.readBinFile path).toList))
  | .writeFile path bytes next => do
    perform (next (← attempt (IO.FS.writeBinFile path ⟨bytes.toArray⟩)))
  | .makeDir path next => do
    perform (next (← attempt (IO.FS.createDir path)))
  | .listDir path next => do
    let names := do
      let entries ← (entryAt path).root.readDir
      return entries.toList.map IO.FS.DirEntry.fileName
    perform (next (← attempt names))
  | .status path next => do
    perform (next (← kindOf path))
  | .changedAt path next => do
    let time ← attempt do return (← (entryAt path).root.metadata).modified.sec.toNat
    perform (next (time.toOption.getD 0))
  | .clock next => do
    perform (next (← IO.monoNanosNow))

/-- The variables of the environment as they are now. -/
def environment : IO Environment := do
  let values ← variableNames.mapM fun name => return (name, ← IO.getEnv name)
  return fun name => (values.lookup name).join

/-- The programs there are. -/
def usage : String := "; there are " ++ ", ".intercalate commandNames

end TableParser.Console

open TableParser in
/-- Runs the program that the first argument names. -/
def main (args : List String) : IO UInt32 := do
  match args with
  | name :: rest =>
    match command? name with
    | some command => Console.perform (command (← Console.environment) rest)
    | none =>
      IO.eprintln ("no program " ++ name ++ Console.usage)
      return 2
  | [] =>
    IO.eprintln ("no program is named" ++ Console.usage)
    return 2
