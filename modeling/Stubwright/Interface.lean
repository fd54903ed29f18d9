import Stubwright.Program.Resolve
import Stubwright.StubError

/-!
# The methods of an interface

An interface has the methods of the interfaces it embeds and those it declares itself.  They are
listed embedded ones first, in the order of the declaration, and each with the scope that its
signature was written in.  The first method of a name claims it, and later ones are left out even
if their signatures differ.

Interfaces that are being listed are not entered again: `expandDeclared` takes the names that may
still be entered, and each step into an interface takes one of them away.  An interface that embeds
itself is thereby found out, and the listing ends.
-/

namespace Stubwright

/-- Methods that come from the declaration of one interface. -/
structure MethodGroup where
  interface : String
  /-- Where the signatures were written. -/
  scope : Scope
  methods : List Method
deriving DecidableEq, Inhabited

/-- Listed methods, and the names claimed so far. -/
structure Expansion where
  /-- The methods by the interfaces they come from, in order. -/
  groups : List MethodGroup
  claimed : Names
deriving DecidableEq, Inhabited

/-- The signature of the method of the predeclared `error`. -/
def errorSignature : Signature :=
  ⟨[], [.unnamed (.name "string")]⟩

/-- The method of the predeclared `error`. -/
def errorMethod : Method :=
  ⟨"Error", errorSignature⟩

namespace Expansion

def claim (claimed : Names) : List Method → List Method × Names
  | [] => ([], claimed)
  | m :: ms =>
    if claimed.contains m.name then claim claimed ms
    else
      let (kept, claimed) := claim (Names.insert m.name claimed) ms
      (m :: kept, claimed)

/-- Nothing more than what was claimed before. -/
def nothing (claimed : Names) : Expansion :=
  ⟨[], claimed⟩

/-- The methods of one interface that are not claimed yet, as a group unless there are none. -/
def ofMethods (interface : String) (scope : Scope) (claimed : Names) (methods : List Method) :
    Expansion :=
  match claim claimed methods with
  | ([], claimed) => ⟨[], claimed⟩
  | (kept, claimed) => ⟨[⟨interface, scope, kept⟩], claimed⟩

end Expansion

namespace Program

/-- The error for a bare name that nothing declares.  It may come from a package that the file
imports with a dot and that is not there. -/
def unknownName (scope : Scope) (name : String) : StubError :=
  match scope.file.dotImports with
  | path :: _ => .dependencyMissing path name
  | [] => .declarationNotFound scope.package.path name

/-- The declared type that a name of another package stands for, or why there is none. -/
def requireQualified (p : Program) (scope : Scope) (qualifier name : String) :
    Except StubError Declared :=
  match p.qualifierPath? scope.file qualifier with
  | none => .error (.unresolvedQualifier qualifier scope.file.path)
  | some path =>
    match p.package? path with
    | none => .error (.dependencyMissing path (qualifier ++ "." ++ name))
    | some pkg =>
      match pkg.lookup? name with
      | none => .error (.declarationNotFound path name)
      | some decl => .ok decl

/-- The interface literal that `decl` is declared as, by way of at most `hops` declarations from
`current` on, and the declaration it stands in. -/
def interfaceWithin (p : Program) (decl : Declared) :
    (hops : Nat) → (current : Declared) → Except StubError (Declared × List Element)
  | 0, _ => .error (.invalidInterface decl.qualifiedName .definitionCycle)
  | hops + 1, current =>
    if !current.spec.typeParams.isEmpty then
      .error (.invalidInterface decl.qualifiedName .generic)
    else match current.spec.type.unparen with
      | .interface elems => .ok (current, elems)
      | .name name =>
        match p.resolveName current.scope name with
        | .declared next => p.interfaceWithin decl hops next
        | .predeclared =>
          if name = "any" then .ok (current, [])
          else if name = "error" then
            .error (.invalidInterface decl.qualifiedName .predeclaredError)
          else .error (.notAnInterface decl.qualifiedName)
        | .unknown => .error (unknownName current.scope name)
      | .qualified package name =>
        match p.requireQualified current.scope package name with
        | .ok next => p.interfaceWithin decl hops next
        | .error e => .error e
      | .generic .. => .error (.invalidInterface decl.qualifiedName .generic)
      | _ => .error (.notAnInterface decl.qualifiedName)

/-- The interface literal that a declared type leads to, and the declaration it stands in. -/
def interfaceOf (p : Program) (decl : Declared) : Except StubError (Declared × List Element) :=
  p.interfaceWithin decl hopLimit decl

section
variable (p : Program) (expandNamed : Declared → Names → Except StubError Expansion)
  (interface : String) (scope : Scope)

mutual

/-- The methods that an embedded element brings in.  Types that are no interfaces and unions bring
in none. -/
def expandEmbedded (claimed : Names) : TypeExpr → Except StubError Expansion
  | .paren elem => expandEmbedded claimed elem
  | .name name =>
    match p.resolveName scope name with
    | .declared decl => expandNamed decl claimed
    | .predeclared =>
      if name = "error" then .ok (.ofMethods interface scope claimed [errorMethod])
      else .ok (.nothing claimed)
    | .unknown => .error (unknownName scope name)
  | .qualified package name =>
    match p.requireQualified scope package name with
    | .ok decl => expandNamed decl claimed
    | .error e => .error e
  | .interface elems =>
    match expandEmbeds claimed elems with
    | .error e => .error e
    | .ok embedded =>
      let own := Expansion.ofMethods interface scope embedded.claimed (Element.methods elems)
      .ok ⟨embedded.groups ++ own.groups, own.claimed⟩
  | .generic .. => .error (.invalidInterface interface .generic)
  | _ => .ok (.nothing claimed)

/-- The methods that the embedded elements among the elements of an interface bring in. -/
def expandEmbeds (claimed : Names) : List Element → Except StubError Expansion
  | [] => .ok (.nothing claimed)
  | .method .. :: elems => expandEmbeds claimed elems
  | .embed type :: elems =>
    match expandEmbedded claimed type with
    | .error e => .error e
    | .ok first =>
      match expandEmbeds first.claimed elems with
      | .error e => .error e
      | .ok rest => .ok ⟨first.groups ++ rest.groups, rest.claimed⟩

end

end

/-- The methods of a declared interface, listed while the interfaces that are not among `fresh` are
being listed too; `root` is the outermost of them. -/
def expandDeclared (p : Program) (fresh : List String) (root : Option String) (decl : Declared)
    (claimed : Names) : Except StubError Expansion :=
  match p.interfaceOf decl with
  | .error e => .error e
  | .ok (target, elems) =>
    let name := target.qualifiedName
    if _mem : name ∈ fresh then
      let expandNamed := fun decl claimed =>
        match p.expandDeclared (Names.without name fresh) (some (root.getD name)) decl claimed with
        | .error (.notAnInterface _) => .ok (.nothing claimed)
        | result => result
      p.expandEmbedded expandNamed name target.scope claimed (.interface elems)
    else .error (.invalidInterface (root.getD name) (.embeddingCycle name))
termination_by fresh.length
decreasing_by exact Names.length_without_lt _mem

/-- The methods of a declared interface whose names are not claimed before. -/
def expand (p : Program) (decl : Declared) (claimed : Names) : Except StubError Expansion :=
  p.expandDeclared p.typeNames none decl claimed

end Program

end Stubwright
