import Stubwright.ImportPath
import Stubwright.Program

/-!
# Where packages come from

A source of packages gives the files of the package at an import path, and the paths that a pattern
stands for.  It also lists the paths that its files can lead to, which bounds the packages that one
program can reach.

`Shelf` keeps packages in memory, by import path.
-/

namespace Stubwright

/-- Where packages come from. -/
structure PackageSource where
  /-- The files of the package at an import path, in the order of their names. -/
  read : String → Option (List SourceUnit)
  /-- The import paths that a pattern stands for. -/
  expand : String → List String
  mainModule : Option String
  /-- The import paths that files of the source may lead to. -/
  reach : List String

/-- A pattern that stands for a path and all paths below it, given as that path. -/
def wildcardBase? (pattern : String) : Option String :=
  let cs := pattern.toList
  if "/...".toList.isSuffixOf cs then some (String.ofList (cs.take (cs.length - 4))) else none

/-- The packages held in memory. -/
structure Shelf where
  /-- The files of each package, by import path, in the order of import paths. -/
  packages : List (String × List SourceUnit)
  module : Option String
deriving Repr, Inhabited

namespace Shelf

def empty (module : Option String) : Shelf := ⟨[], module⟩

/-- Puts a file behind the files of the same package whose path is not greater. -/
def insertUnit (unit : SourceUnit) : List SourceUnit → List SourceUnit
  | [] => [unit]
  | u :: us => if unit.path < u.path then unit :: u :: us else u :: insertUnit unit us

/-- Adds a file to the package at an import path. -/
def insertAt (path : String) (unit : SourceUnit) :
    List (String × List SourceUnit) → List (String × List SourceUnit)
  | [] => [(path, [unit])]
  | (p, us) :: rest =>
    if path < p then (path, [unit]) :: (p, us) :: rest
    else if path = p then (p, insertUnit unit us) :: rest
    else (p, us) :: insertAt path unit rest

/-- Adds a file with the given name to the package at an import path. -/
def addFile (s : Shelf) (path name text : String) : Shelf :=
  { s with packages := insertAt path ⟨path ++ "/" ++ name, text⟩ s.packages }

def toSource (s : Shelf) : PackageSource where
  read path := s.packages.lookup path
  expand pattern :=
    match wildcardBase? pattern with
    | some base =>
      (s.packages.map (·.1)).filter fun path => (ImportPath.rest? path base).isSome
    | none => [pattern]
  mainModule := s.module
  reach := s.packages.map (·.1)

end Shelf

end Stubwright
