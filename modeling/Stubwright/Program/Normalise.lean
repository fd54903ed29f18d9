import Stubwright.NormalType
import Stubwright.Program.Resolve

/-!
# Bringing types into normal form

A type as written in some scope becomes a type in normal form: names are resolved in the scope,
aliases without type parameters are followed into the scope of their declaration, `byte`, `rune`
and `any` are replaced by what they stand for, and parentheses, parameter names and groups
disappear.

An alias is followed at most `hopLimit` times in a row; function, interface and struct literals
start counting anew.  Aliases that contain themselves in such a literal have no finite normal form.
They are cut off at a number of hops that no other type needs.
-/

namespace Stubwright

/-- The normal form of a predeclared name; `byte`, `rune` and `any` are other names. -/
def NormalType.ofPredeclared (name : String) : NormalType :=
  if name = "byte" then .named none "uint8"
  else if name = "rune" then .named none "int32"
  else if name = "any" then .interface []
  else .named none name

/-- The normal form of a declared type: its import path and name. -/
def NormalType.ofDeclared (decl : Declared) : NormalType :=
  .named (some decl.package.path) decl.name

namespace Program

section
variable (p : Program) (follow : Nat → Declared → NormalType) (scope : Scope)

mutual

/-- The normal form of a type.  A declared type is left to `follow`, together with the number of
aliases that were followed on the way. -/
def normalType (depth : Nat) : TypeExpr → NormalType
  | .name name =>
    match p.resolveName scope name with
    | .declared decl => follow depth decl
    | .predeclared => .ofPredeclared name
    | .unknown => .named none name
  | .qualified package name =>
    match p.qualifierPath? scope.file package with
    | some path =>
      match (p.package? path).bind (·.lookup? name) with
      | some decl => follow depth decl
      | none => .named (some path) name
    | none => .named (some package) name
  | .generic base args => .generic (normalType depth base) (normalTypes depth args)
  | .pointer elem => .pointer (normalType depth elem)
  | .slice elem => .slice (normalType depth elem)
  | .ellipsis elem => .slice (normalType depth elem)
  | .array len elem => .array len (normalType depth elem)
  | .map key value => .map (normalType depth key) (normalType depth value)
  | .chan dir elem => .chan dir (normalType depth elem)
  | .func sig => .func (normalSignature sig)
  | .interface elems => .interface (normalElements elems)
  | .struct fields => .struct (normalFields fields)
  | .paren elem => normalType depth elem
  | .union terms => .union (normalTerms depth terms)

/-- The normal forms of types. -/
def normalTypes (depth : Nat) : List TypeExpr → List NormalType
  | [] => []
  | t :: ts => normalType depth t :: normalTypes depth ts

/-- The normal form of a signature; aliases are counted anew in it. -/
def normalSignature : Signature → NormalSignature
  | ⟨params, results⟩ =>
    ⟨normalParams params, normalParams results, Signature.isVariadic ⟨params, results⟩⟩

/-- One normal form for each parameter. -/
def normalParams : List Param → List NormalType
  | [] => []
  | ⟨names, type⟩ :: ps =>
    List.replicate (max names.length 1) (normalType 0 type) ++ normalParams ps

/-- The normal forms of the elements of an interface. -/
def normalElements : List Element → List NormalElement
  | [] => []
  | .method name sig :: es => .method name (normalSignature sig) :: normalElements es
  | .embed type :: es => .embed (normalType 0 type) :: normalElements es

/-- One normal form for each field. -/
def normalFields : List Field → List NormalField
  | [] => []
  | ⟨names, type, tag⟩ :: fs =>
    let type := normalType 0 type
    (if names.isEmpty then [⟨none, type, tag⟩] else names.map fun n => ⟨some n, type, tag⟩)
      ++ normalFields fs

/-- The normal forms of the terms of a union. -/
def normalTerms (depth : Nat) : List Term → List NormalTerm
  | [] => []
  | ⟨tilde, type⟩ :: ts => ⟨tilde, normalType depth type⟩ :: normalTerms depth ts

end

end

/-- The normal form of a declared type.  An alias without type parameters is followed as long as
the literal that it stands in allows and hops are left. -/
def followDeclared (p : Program) : (hops depth : Nat) → Declared → NormalType
  | 0, _, decl => .ofDeclared decl
  | hops + 1, depth, decl =>
    if decl.spec.isAlias && decl.spec.typeParams.isEmpty && depth < hopLimit then
      p.normalType (p.followDeclared hops) decl.scope (depth + 1) decl.spec.type
    else .ofDeclared decl

/-- More hops than a finite normal form needs: between two literals at most `hopLimit`, and no
alias twice within one another's literals. -/
def hopBudget (p : Program) : Nat :=
  hopLimit * (p.typeDecls.countP (·.spec.isAlias) + 1)

/-- The normal form of a type that is written in a scope. -/
def normalise (p : Program) (scope : Scope) (type : TypeExpr) : NormalType :=
  p.normalType (p.followDeclared p.hopBudget) scope 0 type

/-- The text that identifies the type that is meant by a type expression in a scope. -/
def canonical (p : Program) (scope : Scope) (type : TypeExpr) : String :=
  (p.normalise scope type).text

/-- The shape of a signature that is written in a scope. -/
def methodShape (p : Program) (scope : Scope) (sig : Signature) : MethodShape :=
  (p.normalSignature (p.followDeclared p.hopBudget) scope sig).shape

end Program

end Stubwright
