import Stubwright.Edit
import Stubwright.Host.Failure
import Stubwright.Implementation
import Stubwright.Program.Load

/-!
# What can go wrong

The causes for which stubs are not generated or interfaces not listed, each with what it concerns,
and their wording.
-/

namespace Stubwright

/-- Why an interface cannot be taken apart into its methods. -/
inductive InterfaceFault where
  /-- It is declared as the predeclared `error`. -/
  | predeclaredError
  /-- Its declaration leads back to itself. -/
  | definitionCycle
  /-- It embeds itself, by way of the given interface. -/
  | embeddingCycle (through : String)
  /-- It has type parameters or arguments. -/
  | generic
deriving DecidableEq, Repr

def InterfaceFault.message : InterfaceFault → String
  | .predeclaredError => "defined from predeclared error"
  | .definitionCycle => "type definition cycle"
  | .embeddingCycle through => "embedding cycle through " ++ through
  | .generic => "generic interfaces are not supported"

/-- Why a request cannot be carried out as it was made. -/
inductive RequestFault where
  /-- No pattern was given, and there is no main module to take one from. -/
  | noPattern
deriving DecidableEq, Repr

def RequestFault.message : RequestFault → String
  | .noPattern => "no go.mod found; pass a package pattern"

/-- Why a file was not replaced. -/
inductive WriteFault where
  /-- The file could not be read. -/
  | unreadable (failure : Host.Failure)
  /-- The file is not the one that was loaded. -/
  | changed
deriving DecidableEq, Repr

def WriteFault.message : WriteFault → String
  | .unreadable failure => "cannot read destination: " ++ failure.message
  | .changed => "file changed since it was loaded"

/-- A condition that should have held by construction and did not. -/
inductive BrokenInvariant where
  /-- A signature for the destination names a package that the destination does not import. -/
  | unboundQualifier (qualifier : String)
  | importEdits (file : String) (error : Edit.Error)
deriving DecidableEq, Repr

def BrokenInvariant.message : BrokenInvariant → String
  | .unboundQualifier qualifier => "rewritten signature uses unbound qualifier " ++ qualifier
  | .importEdits file error => "import edits for " ++ file ++ ": " ++ error.message

/-- Why stubs are not generated or interfaces not listed. -/
inductive StubError where
  | declarationNotFound (package name : String)
  | dependencyMissing (package interface : String)
  | signatureMismatch (name want have_ : String)
  /-- The generated file is not well formed; it comes along as it is. -/
  | format (error : SyntaxError) (draft : Implementation)
  | notAnInterface (name : String)
  /-- An interface cannot be taken apart. -/
  | invalidInterface (name : String) (fault : InterfaceFault)
  | unresolvedQualifier (qualifier file : String)
  /-- The request cannot be carried out as it was made. -/
  | invalidArguments (fault : RequestFault)
  /-- The result could not be written. -/
  | apply (fault : WriteFault) (file : String)
  | load (error : LoadError)
  /-- Something that cannot happen did. -/
  | internal (broken : BrokenInvariant)
deriving DecidableEq, Repr

def StubError.message : StubError → String
  | .declarationNotFound package name => "declaration not found: " ++ package ++ "." ++ name
  | .dependencyMissing package interface =>
    "package " ++ package ++ " needed by " ++ interface ++ " is not loaded"
  | .signatureMismatch name want have_ =>
    "method " ++ name ++ " has signature " ++ have_ ++ ", interface wants " ++ want
  | .format error _ => "format failed: " ++ error.display
  | .notAnInterface name => name ++ " is not an interface"
  | .invalidInterface name fault => "invalid interface " ++ name ++ ": " ++ fault.message
  | .unresolvedQualifier qualifier file =>
    file ++ ": undefined package qualifier " ++ qualifier
  | .invalidArguments fault => "invalid arguments: " ++ fault.message
  | .apply fault _ => "apply error: " ++ fault.message
  | .load error => error.message
  | .internal broken => "internal error: " ++ broken.message

end Stubwright
