import TableParser.Program.Basic
/-!
Files as plain data, and programs run on them.

A path is walked name by name: `.` stays, `..` goes up, any other name goes down. Every place that
the walk leaves has to be a directory, also where it leaves by `.` or `..`; only the place where it
ends may hold nothing. The operations fail for the reasons a file system has.
-/

namespace TableParser

/-- What a file system holds. -/
inductive Entry where
  | file (bytes : List UInt8)
  /-- A file that is always empty, whatever is written to it. -/
  | sink
  | directory
  deriving DecidableEq

/-- Whether an entry is a file or a directory. -/
def Entry.kind : Entry → EntryKind
  | .file _ | .sink => .file
  | .directory => .directory

/-- A place: its name, the name of the directory it is in, and so on up. The root has no name. -/
abbrev Location := List String

/-- Files and directories by place. -/
structure FileStore where
  entries : List (Location × Entry) := []

namespace FileStore

/-- The working directory, in a directory in the root. No path can spell the names of these two, so
they are reached only by starting there. -/
def home : Location := ["", ""]

/-- How many bytes a name may have. -/
def maxName : Nat := 255

/-- How many bytes a path may have. -/
def maxPath : Nat := 4095

/-- What is at a place. -/
def get? (s : FileStore) (place : Location) : Option Entry :=
  if place.isSuffixOf home then some .directory
  else (s.entries.find? fun e => e.1 == place).map Prod.snd

/-- Puts something at a place. -/
def set (s : FileStore) (place : Location) (e : Entry) : FileStore :=
  ⟨s.entries.filter (fun e => e.1 != place) ++ [(place, e)]⟩

/-! ### Walking a path -/

/-- The names of a path. -/
def names (path : String) : List String :=
  (path.splitOn "/").filter (· ≠ "")

/-- The place where the walk of a path starts. -/
def start (path : String) : Location :=
  if path.toList.head? = some '/' then [] else home

/-- Whether a path has a slash at its end and so asks for a directory. -/
def endsOpen (path : String) : Bool := path.toList.getLast? = some '/'

/-- The place a name leads to. -/
def move (place : Location) (name : String) : Except FileError Location :=
  if name = "." then .ok place
  else if name = ".." then .ok place.tail
  else if maxName < name.utf8ByteSize then .error .nameTooLong
  else .ok (name :: place)

/-- Refuses a place that is no directory. -/
def checkDirectory (s : FileStore) (place : Location) : Except FileError Unit :=
  match s.get? place with
  | some .directory => .ok ()
  | some _ => .error .notDirectory
  | none => .error .notFound

/-- The place that names lead to. -/
def walk (s : FileStore) (place : Location) : List String → Except FileError Location
  | [] => .ok place
  | name :: rest => do
    s.checkDirectory place
    s.walk (← move place name) rest

/-- Refuses an empty path and one that is too long. -/
def checkPath (path : String) : Except FileError Unit :=
  if path = "" then .error .notFound
  else if maxPath < path.utf8ByteSize then .error .nameTooLong
  else .ok ()

/-- What a path leads to. -/
def find (s : FileStore) (path : String) : Except FileError Entry := do
  checkPath path
  match s.get? (← s.walk (start path) (names path)) with
  | some .directory => return .directory
  | some e => if endsOpen path then throw .notDirectory else return e
  | none => throw .notFound

/-- The directory in which a path wants to make something. -/
def findAbove (s : FileStore) (path : String) : Except FileError Location := do
  checkPath path
  let above ← s.walk (start path) (names path).dropLast
  s.checkDirectory above
  return above

/-- The place that the last name of a path leads to from its directory. -/
def lastPlace (s : FileStore) (above : Location) (path : String) : Except FileError Location :=
  s.walk above (names path).getLast?.toList

/-! ### Operations -/

/-- The bytes of a file. -/
def read (s : FileStore) (path : String) : Except FileError (List UInt8) := do
  match ← s.find path with
  | .file bytes => return bytes
  | .sink => return []
  | .directory => throw .isDirectory

/-- Makes a file, or gives it new bytes. -/
def write (s : FileStore) (path : String) (bytes : List UInt8) : Except FileError FileStore := do
  let above ← s.findAbove path
  if endsOpen path then throw .isDirectory
  let place ← s.lastPlace above path
  match s.get? place with
  | some .directory => throw .isDirectory
  | some .sink => return s
  | _ => return s.set place (.file bytes)

/-- Makes a directory. -/
def makeDir (s : FileStore) (path : String) : Except FileError FileStore := do
  let above ← s.findAbove path
  let place ← s.lastPlace above path
  if (s.get? place).isSome then throw .exists
  return s.set place .directory

/-- The names in a directory. -/
def list (s : FileStore) (path : String) : Except FileError (List String) := do
  match ← s.find path with
  | .file _ | .sink => throw .notDirectory
  | .directory =>
    let place ← s.walk (start path) (names path)
    return s.entries.filterMap fun (p, _) =>
      match p with
      | name :: above => if above = place then some name else none
      | [] => none

/-- What a path leads to, if it leads anywhere. -/
def status (s : FileStore) (path : String) : Option EntryKind :=
  (s.find path).toOption.map Entry.kind

/-- A store with a directory at a place and at all places above it. -/
def withDirs (s : FileStore) : Location → FileStore
  | [] => s
  | name :: above =>
    let s := s.withDirs above
    if (s.get? (name :: above)).isSome then s else s.set (name :: above) .directory

/-- The places that a system has beside the working directory: a few directories, and one file that
swallows what is written to it. -/
def standard : FileStore :=
  let directories := ["dev", "etc", "tmp", "usr", "var"]
  let s : FileStore := directories.foldl (fun s name => s.withDirs [name]) {}
  s.set ["null", "dev"] .sink

/-- A store with one more file below the working directory and the directories above it. -/
def withFile (s : FileStore) (path : String) (bytes : List UInt8) : FileStore :=
  let place := (names path).reverse ++ home
  (s.withDirs place.tail).set place (.file bytes)

end FileStore

/-- A run of a program on plain data: its files and what it has written. -/
structure Session where
  files : FileStore := .standard
  stdout : String := ""
  stderr : String := ""

namespace Session

/-- The answer to a change of the files, and the session after it. -/
def change (s : Session) (r : Except FileError FileStore) : Except FileError Unit × Session :=
  match r with
  | .ok files => (.ok (), { s with files })
  | .error e => (.error e, s)

/-- Runs a program. The clock stands still. -/
def run {α : Type} (s : Session) : Program α → α × Session
  | .done a => (a, s)
  | .out text next => run { s with stdout := s.stdout ++ text } (next ())
  | .err text next => run { s with stderr := s.stderr ++ text } (next ())
  | .readFile path next => run s (next (s.files.read path))
  | .writeFile path bytes next =>
    let r := s.change (s.files.write path bytes)
    run r.2 (next r.1)
  | .makeDir path next =>
    let r := s.change (s.files.makeDir path)
    run r.2 (next r.1)
  | .listDir path next => run s (next (s.files.list path))
  | .status path next => run s (next (s.files.status path))
  | .changedAt _ next => run s (next 0)
  | .clock next => run s (next 0)

end Session

end TableParser
