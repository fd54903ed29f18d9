import Stubwright.Text.Blank

/-!
# References to declared types

A declared type is named by the import path of its package and its name, written `path.Name`.  The
last point divides the two, so that a path may hold points of its own.
-/

namespace Stubwright

/-- A reference to a declared type. -/
structure TypeRef where
  package : String
  name : String
deriving DecidableEq, Repr, Inhabited

namespace TypeRef

/-- Reads a reference.  Both sides of the last point have to be non-empty, and a name has no
slash. -/
def parse? (text : String) : Option TypeRef :=
  let backwards := (Text.trim text.toList).reverse
  let name := (backwards.takeWhile (· != '.')).reverse
  match backwards.dropWhile (· != '.') with
  | [] => none
  | _ :: package =>
    if package.isEmpty || name.isEmpty || name.contains '/' then none
    else some ⟨String.ofList package.reverse, String.ofList name⟩

/-- A reference as it is written. -/
def display (r : TypeRef) : String :=
  r.package ++ "." ++ r.name

end TypeRef

end Stubwright
