import Stubwright.Missing
import Stubwright.Requalify
import Stubwright.Stub

/-!
# Implementing interfaces

The stubs that a type needs to implement an interface, and the interfaces that packages offer.
-/

namespace Stubwright

namespace Program

/-- The type that a reference names, which has to be there. -/
def requireType (p : Program) (r : TypeRef) : Except StubError Declared :=
  match p.lookup? r with
  | some decl => .ok decl
  | none => .error (.declarationNotFound r.package r.name)

def stubsFor (p : Program) (dest : Scope) : List MissingMethod → Importing (List Method)
  | [] => return []
  | m :: ms => do
    let sig ← p.requalify dest m.scope m.method.sig
    return ⟨m.method.name, sig⟩ :: (← p.stubsFor dest ms)

/-- The file with the stubs that a type needs to implement an interface, or nothing if it
implements it already. -/
def implement (p : Program) (interface concrete : TypeRef) :
    Except StubError (Option Implementation) := do
  let decl ← p.requireType interface
  let dest ← p.requireType concrete
  let expansion ← p.expand decl []
  let set ← p.methodSet dest
  let missing ← p.missingMethods expansion.groups set
  if missing.isEmpty then return none
  let (stubs, table) := (p.stubsFor dest.scope missing).run (.ofFile dest.file.source)
  return some (← dest.file.withStubs dest.spec interface.name (← stubs) table)

end Program

/-- A generated implementation, with the digest of the file that it was generated from. -/
structure Generated where
  implementation : Implementation
  /-- The digest of the text of the file as it was loaded. -/
  digest : String
deriving DecidableEq, Repr, Inhabited

namespace PackageSource

/-- Loads what two references need and generates the stubs. -/
def generate (source : PackageSource) (interface concrete : TypeRef) :
    Except StubError (Option Generated) := do
  let p ← (Program.load source [interface.package, concrete.package]).mapError .load
  let some implementation ← p.implement interface concrete | return none
  let dest ← p.requireType concrete
  return some ⟨implementation, dest.file.digest⟩

end PackageSource

end Stubwright
