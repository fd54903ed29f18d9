import Stubwright.ImportTable
import Stubwright.StubError
import Stubwright.TypeExpr.Walk

/-!
# Signatures in another file

A signature that was written in one file has to name the same types in another one, the
destination.  A type of the destination's own package loses its qualifier, a type of another
package gets the qualifier that the destination has for it, and where the destination has none it
comes to import the package.

The imports that are added stay even if a later part of the signature fails.
-/

namespace Stubwright

/-- A computation that may add imports and may fail; imports added before a failure stay. -/
abbrev Importing := ExceptT StubError (StateM ImportTable)

namespace Program

/-- The qualifier under which the destination imports a package, which it comes to import if it did
not; `none` if the types of the package are seen without one. -/
def qualifierFor (p : Program) (dest : Scope) (path preferred : String) (explicit : Bool) :
    Importing (Option String) := do
  let table ← get
  match table.binding? p path with
  | some (.named qualifier) => return some qualifier
  | some .dot => return none
  | none =>
    let (qualifier, table) := table.bind p dest.package.declaredNames path preferred explicit
    set table
    return some qualifier

/-- What a type written in `origin` becomes in `dest`, itself only and not its parts. -/
def requalifyNode (p : Program) (dest origin : Scope) : TypeExpr → Importing Decision
  | .qualified package name => do
    let some path := p.qualifierPath? origin.file package
      | throw (.unresolvedQualifier package origin.file.path)
    if path = dest.package.path then return .replace (.name name)
    let (preferred, explicit) := match origin.file.aliasOf? path with
      | some name => (name, true)
      | none => (p.packageName path, false)
    match ← p.qualifierFor dest path preferred explicit with
    | none => return .replace (.name name)
    | some qualifier =>
      return if qualifier = package then .keep else .replace (.qualified qualifier name)
  | .name name =>
    match p.resolveName origin name with
    | .declared decl => do
      let path := decl.package.path
      if path = dest.package.path then return .enter
      match ← p.qualifierFor dest path (p.packageName path) false with
      | none => return .keep
      | some qualifier => return .replace (.qualified qualifier name)
    | _ => return .enter
  | _ => return .enter

def unboundQualifier? (p : Program) (table : ImportTable) (sig : Signature) : Option String :=
  sig.references.findSome? fun
    | .qualified package _ => if (table.boundPath? p package).isNone then some package else none
    | _ => none

/-- A signature written in `origin` as it has to be written in `dest`. -/
def requalify (p : Program) (dest origin : Scope) (sig : Signature) : Importing Signature := do
  let sig ← sig.transformM (p.requalifyNode dest origin)
  match p.unboundQualifier? (← get) sig with
  | some qualifier => throw (.internal (.unboundQualifier qualifier))
  | none => return sig

end Program

end Stubwright
