import Stubwright.MethodSet
import Stubwright.Program.Normalise

/-!
# Missing methods

Which methods of an interface a type does not have.  A method that the type has with another
signature makes the whole question fail, since no stub can help then.
-/

namespace Stubwright

/-- A method of an interface that a type does not have. -/
structure MissingMethod where
  /-- Where its signature was written. -/
  scope : Scope
  method : Method
  /-- The qualified name of the interface that declares it. -/
  interface : String
deriving DecidableEq, Inhabited

namespace Program

/-- A method of an interface that is missing, or nothing if the type has it. -/
def missingMethod (p : Program) (set : MethodSet) (group : MethodGroup) (method : Method) :
    Except StubError (Option MissingMethod) :=
  match set.get? method.name with
  | none => .ok (some ⟨group.scope, method, group.interface⟩)
  | some entry =>
    let want := p.methodShape group.scope method.sig
    let has := p.methodShape entry.scope entry.sig
    if want = has then .ok none
    else .error (.signatureMismatch method.name want.display has.display)

/-- The missing ones among methods that are given with their groups, in order. -/
def missingAmong (p : Program) (set : MethodSet) :
    List (MethodGroup × Method) → Except StubError (List MissingMethod)
  | [] => .ok []
  | (group, method) :: rest =>
    match p.missingMethod set group method with
    | .error e => .error e
    | .ok first =>
      match p.missingAmong set rest with
      | .error e => .error e
      | .ok missing => .ok (first.toList ++ missing)

/-- The methods of groups that a method set lacks; it fails for the first that differs. -/
def missingMethods (p : Program) (groups : List MethodGroup) (set : MethodSet) :
    Except StubError (List MissingMethod) :=
  p.missingAmong set (groups.flatMap fun group => group.methods.map fun m => (group, m))

end Program

end Stubwright
