import Stubwright.Text.Alphanumeric
import Stubwright.Text.Lines

/-!
# Import paths

An import path is a sequence of elements divided by slashes.  Its text alone tells whether it
belongs to the standard library, where a module cache keeps it, and which name its package most
likely declares.
-/

namespace Stubwright.ImportPath

/-- What is left of a path behind another one that it equals or lies under, without the slash
between them. -/
def rest? (path base : String) : Option String :=
  if path = base then some ""
  else if base.toList.isPrefixOf path.toList then
    match path.toList.drop base.length with
    | '/' :: rest => some (String.ofList rest)
    | _ => none
  else none

def elements (path : String) : List String :=
  (Text.splitOn '/' path.toList).map String.ofList

/-- Whether a path belongs to the standard library: its first element has no point. -/
def isStandard (path : String) : Bool :=
  !(path.toList.takeWhile (· != '/')).contains '.'

/-- A path or a version as a module cache spells it: an upper-case letter becomes an exclamation
mark and the lower-case letter. -/
def escape (path : String) : String :=
  String.ofList (path.toList.flatMap fun c => if c.isUpper then ['!', c.toLower] else [c])

/-- Whether an element is a major version, a `v` and digits. -/
def isMajorVersion (element : String) : Bool :=
  match element.toList with
  | 'v' :: digits => !digits.isEmpty && digits.all Char.isDigit
  | _ => false

/-- The element a package is named after: the last one, or the one before a major version. -/
def namingElement (path : String) : String :=
  match (elements path).reverse with
  | [] => ""
  | [last] => last
  | last :: previous :: _ => if isMajorVersion last then previous else last

/-- The name that a package is taken to declare as long as nothing but its path is known: the
naming element without a leading `go-`, up to the first character that no identifier has. -/
def packageName (path : String) : String :=
  let element := (namingElement path).toList
  let element := if "go-".toList.isPrefixOf element then element.drop 3 else element
  String.ofList (element.takeWhile fun c => Text.isAlphanumeric c || c = '_')

/-- The number of leading elements two paths share. -/
def commonElements (a b : String) : Nat :=
  (((elements a).zip (elements b)).takeWhile fun (x, y) => x == y).length

end Stubwright.ImportPath
