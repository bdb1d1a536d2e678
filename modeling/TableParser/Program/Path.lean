/-!
Paths as text: the directory, name, stem and extension of a path, and joining two.

A path is names with slashes between them. Several slashes count as one, and so does a slash at the
end; a name `.` counts only at the start of a path. What a path leads to is not looked at here.

      path      ./a//b/./c.cfg/       /a       ..       .       /
      parent    ./a//b                /        (empty)  (empty) none
      name      c.cfg                 a        ..       none    none
-/

namespace TableParser.Path

/-- Drops slashes and names `.` from the end of a text, given with its last character first. -/
def trimBack : List Char → List Char
  | '/' :: rest => trimBack rest
  | '.' :: '/' :: rest => trimBack rest
  | ['.'] => []
  | cs => cs

/-- Divides a path: a slash or a point that it starts with, and its names, without what does not
count at their end. -/
def split (path : String) : String × List Char :=
  let body (cs : List Char) : List Char := (trimBack cs.reverse).reverse
  match path.toList with
  | '/' :: rest => ("/", body rest)
  | ['.'] => (".", [])
  | '.' :: '/' :: rest => (".", body ('/' :: rest))
  | cs => ("", body cs)

/-- The text before the last name of a path, and that name. -/
def splitName? (path : String) : Option (String × String) :=
  let (start, body) := split path
  if body.isEmpty then none
  else
    let before := (body.reverse.dropWhile (· ≠ '/')).reverse
    let name := (body.reverse.takeWhile (· ≠ '/')).reverse
    some (start ++ String.ofList before, String.ofList name)

/-- The directory of a path; an empty path and the root have none. -/
def parent? (path : String) : Option String :=
  let (start, body) := split path
  if body.isEmpty then
    if start = "." then some "" else none
  else
    let before := body.reverse.dropWhile (· ≠ '/')
    some (start ++ String.ofList (trimBack before).reverse)

/-- A path, its directory, the directory of that, and so on, the empty path left out; at most `n` of
them. -/
def above : (n : Nat) → String → List String
  | 0, _ => []
  | n + 1, path =>
    if path = "" then []
    else path :: (parent? path).elim [] (above n)

/-- A path and the directories above it, innermost first. -/
def ancestors (path : String) : List String := above (path.length + 1) path

/-- Splits a name at its last point; a point at the start of the name does not count. -/
def splitExtension (name : String) : String × Option String :=
  let cs := name.toList.reverse
  let extension := cs.takeWhile (· ≠ '.')
  match cs.dropWhile (· ≠ '.') with
  | [] | ['.'] => (name, none)
  | _ :: stem => (String.ofList stem.reverse, some (String.ofList extension.reverse))

/-- The last name of a path that is a name and not the way up, with what is before it. -/
def file? (path : String) : Option (String × String) :=
  (splitName? path).filter fun p => p.2 ≠ ".."

/-- The extension of a path. -/
def extension? (path : String) : Option String :=
  (file? path).bind fun p => (splitExtension p.2).2

/-- The path with another extension; a path without a name of its own stays. -/
def withExtension (path extension : String) : String :=
  (file? path).elim path fun (before, name) =>
    before ++ (splitExtension name).1 ++ "." ++ extension

/-- A path below a directory. -/
def join (directory name : String) : String :=
  if directory = "" ∨ directory.toList.getLast? = some '/' then directory ++ name
  else directory ++ "/" ++ name

end TableParser.Path
