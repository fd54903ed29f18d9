import Stubwright.Text.Lines

/-!
# Paths of files

A path is kept as it was written: joining appends, and nothing is simplified.  The parent of a path
is found by its components, where repeated separators and `.` do not count, except for a `.` at the
very start.
-/

namespace Stubwright.Host.Path

/-- Whether a path starts at the root. -/
def isAbsolute (path : String) : Bool :=
  path.toList.head? == some '/'

/-- A path below another one.  An absolute path stands for itself. -/
def join (base path : String) : String :=
  if isAbsolute path || base = "" then path
  else if base.toList.getLast? == some '/' then base ++ path
  else base ++ "/" ++ path

/-- A path with several elements appended one by one. -/
def joinAll (base : String) (elements : List String) : String :=
  elements.foldl join base

/-- What stands before the first ordinary component: the root, or a `.`. -/
def head (path : List Char) : List Char :=
  match path with
  | '/' :: _ => ['/']
  | ['.'] => ['.']
  | '.' :: '/' :: _ => ['.']
  | _ => []

/-- Drops components that do not count from the end of a reversed path. -/
def dropIdle : List Char → List Char
  | '/' :: rest => dropIdle rest
  | ['.'] => []
  | '.' :: '/' :: rest => dropIdle rest
  | cs => cs

/-- Drops the last component of a reversed path and the separator before it. -/
def dropComponent (cs : List Char) : List Char :=
  (cs.dropWhile (· != '/')).drop 1

/-- The path without its last component. -/
def parent? (path : String) : Option String :=
  let head := head path.toList
  match dropIdle (path.toList.drop head.length).reverse with
  | [] => if head = ['.'] then some "" else none
  | body => some (String.ofList (head ++ (dropIdle (dropComponent body)).reverse))

/-- A path and at most `n` paths above it. -/
def ancestorsWithin : (n : Nat) → String → List String
  | 0, path => [path]
  | n + 1, path =>
    match parent? path with
    | some up => path :: ancestorsWithin n up
    | none => [path]

/-- A path and all paths above it.  A parent is shorter than its path, which bounds their number. -/
def ancestors (path : String) : List String :=
  ancestorsWithin path.length path

/-- The steps that a path takes from one place to another.  Repeated separators are one, and a
separator at the end asks for a directory, as a `.` does. -/
def steps (path : String) : List String :=
  let pieces := (Text.splitOn '/' path.toList).map String.ofList
  let last := if path.toList.getLast? == some '/' then ["."] else []
  pieces.filter (· != "") ++ last

end Stubwright.Host.Path
