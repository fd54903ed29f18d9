import Stubwright.Interface
import Stubwright.Text.Uppercase

/-!
# Listing interfaces

The exported interfaces of packages, by import path and then in the order of their declarations.
-/

namespace Stubwright

/-- Whether a name is exported: it starts with an upper-case letter. -/
def isExported (name : String) : Bool :=
  name.toList.head?.any Text.isUppercase

namespace Program

/-- Whether a declared type counts as an interface: it is an interface literal, or leads to one. -/
def isListed (p : Program) (decl : Declared) : Bool :=
  match decl.spec.type.unparen with
  | .interface _ => true
  | _ => (p.interfaceOf decl).isOk

/-- The exported interfaces of the packages at the given import paths. -/
def interfacesIn (p : Program) (roots : List String) : List String :=
  (((Names.ofList roots).filterMap p.package?).flatMap (·.typeDecls)).filterMap fun decl =>
    if isExported decl.name && p.isListed decl then some decl.qualifiedName else none

end Program

namespace PackageSource

/-- The pattern that stands for the whole main module. -/
def defaultPattern (source : PackageSource) : Except StubError String :=
  match source.mainModule with
  | some module => .ok (module ++ "/...")
  | none => .error (.invalidArguments .noPattern)

def listInterfaces (source : PackageSource) (pattern : String) : Except StubError (List String) :=
  let roots := source.expand pattern
  match Program.load source roots with
  | .ok p => .ok (p.interfacesIn roots)
  | .error e => .error (.load e)

end PackageSource

end Stubwright
