import Stubwright.Host
import Stubwright.Implement

/-!
# Generating stubs into files

Generating stubs and putting the result in the place of the file it was generated from.  The file
is replaced only if it still is what was loaded, and it keeps its permissions.
-/

namespace Stubwright

/-- What came of generating stubs. -/
structure Outcome where
  /-- The implementation; none if nothing was missing. -/
  implementation : Option Implementation
  /-- Whether the file was replaced. -/
  written : Bool
deriving DecidableEq, Repr, Inhabited

namespace Host

/-- Gives a file new contents, if its text still has the digest that it had when it was loaded. -/
def replaceFile (h : Host) (file content digest : String) : Except StubError Host :=
  match h.read file, h.locate file with
  | .ok bytes, .ok place =>
    if Sha256.hexDigest bytes = digest then .ok (h.write place (encode content))
    else .error (.apply .changed file)
  | .error e, _ => .error (.apply (.unreadable e) file)
  | _, .error e => .error (.apply (.unreadable e) file)

end Host

namespace PackageSource

/-- Generates the stubs that a type needs to implement an interface, and writes them if asked. -/
def generateInto (source : PackageSource) (h : Host) (interface concrete : TypeRef)
    (write : Bool) : Except StubError (Outcome × Host) := do
  match ← source.generate interface concrete with
  | none => return (⟨none, false⟩, h)
  | some generated =>
    let implementation := generated.implementation
    if write then
      let h ← h.replaceFile implementation.file implementation.fileContent generated.digest
      return (⟨some implementation, true⟩, h)
    else return (⟨some implementation, false⟩, h)

end PackageSource

end Stubwright
