import Stubwright.TypeExpr

/-!
# Walking through a type

Two traversals of the nodes of a type, outer nodes first and children in source order: pointer
targets, elements, keys before values, parameters before results, elements of interfaces, field
types, generic bases before their arguments, terms of unions.

`TypeExpr.walk` lists the nodes a visitor sees; the visitor says at each node whether to go into
its children and whether to go on at all.  `TypeExpr.walkM` is the walk of a visitor that has
effects, such as one that remembers what it has seen.  `TypeExpr.transformM` rebuilds the type; at
each node a decision, which may have effects, keeps the node, keeps its whole subtree, or puts
another type in its place.
-/

namespace Stubwright

/-! ## Visiting -/

/-- What a visitor wants after a node. -/
inductive Visit where
  /-- Go on with the children. -/
  | enter
  /-- Leave the children out. -/
  | skip
  /-- Visit nothing more. -/
  | stop
deriving DecidableEq, Repr

/-- The nodes seen on a walk, and whether it went through to its end. -/
structure Visited where
  /-- The nodes in the order they were seen. -/
  nodes : List TypeExpr
  /-- Whether no node stopped the walk. -/
  completed : Bool

namespace Visited

/-- The walk that sees nothing. -/
def none : Visited := ⟨[], true⟩

/-- One walk after another; the second takes place only when the first was completed. -/
def andThen (first second : Visited) : Visited :=
  if first.completed then ⟨first.nodes ++ second.nodes, second.completed⟩ else first

end Visited

mutual

/-- Walks through a type. -/
def TypeExpr.walk (visit : TypeExpr → Visit) (t : TypeExpr) : Visited :=
  match visit t with
  | .stop => ⟨[t], false⟩
  | .skip => ⟨[t], true⟩
  | .enter => Visited.andThen ⟨[t], true⟩ (match t with
    | .name _ | .qualified .. => .none
    | .generic base args => (base.walk visit).andThen (walkTypes visit args)
    | .pointer elem => elem.walk visit
    | .slice elem => elem.walk visit
    | .array _ elem => elem.walk visit
    | .map key value => (key.walk visit).andThen (value.walk visit)
    | .chan _ elem => elem.walk visit
    | .func sig => sig.walk visit
    | .interface elems => walkElements visit elems
    | .struct fields => walkFields visit fields
    | .paren elem => elem.walk visit
    | .ellipsis elem => elem.walk visit
    | .union terms => walkTerms visit terms)

def walkTypes (visit : TypeExpr → Visit) : List TypeExpr → Visited
  | [] => .none
  | t :: ts => (t.walk visit).andThen (walkTypes visit ts)

def Signature.walk (visit : TypeExpr → Visit) : Signature → Visited
  | ⟨params, results⟩ => (walkParams visit params).andThen (walkParams visit results)

def walkParams (visit : TypeExpr → Visit) : List Param → Visited
  | [] => .none
  | p :: ps => (p.walk visit).andThen (walkParams visit ps)

def Param.walk (visit : TypeExpr → Visit) : Param → Visited
  | ⟨_, type⟩ => type.walk visit

def walkElements (visit : TypeExpr → Visit) : List Element → Visited
  | [] => .none
  | e :: es => (e.walk visit).andThen (walkElements visit es)

def Element.walk (visit : TypeExpr → Visit) : Element → Visited
  | .method _ sig => sig.walk visit
  | .embed type => type.walk visit

def walkFields (visit : TypeExpr → Visit) : List Field → Visited
  | [] => .none
  | f :: fs => (f.walk visit).andThen (walkFields visit fs)

def Field.walk (visit : TypeExpr → Visit) : Field → Visited
  | ⟨_, type, _⟩ => type.walk visit

def walkTerms (visit : TypeExpr → Visit) : List Term → Visited
  | [] => .none
  | t :: ts => (t.walk visit).andThen (walkTerms visit ts)

def Term.walk (visit : TypeExpr → Visit) : Term → Visited
  | ⟨_, type⟩ => type.walk visit

end

section Effects

variable {m : Type → Type} [Monad m]

/-- One walk after another; the second takes place only when the first was completed. -/
def andThenM (first second : m Bool) : m Bool := do
  if ← first then second else return false

mutual

/-- Walks through a type with a visitor that has effects, and says whether it was completed. -/
def TypeExpr.walkM (visit : TypeExpr → m Visit) (t : TypeExpr) : m Bool := do
  match ← visit t with
  | .stop => return false
  | .skip => return true
  | .enter => match t with
    | .name _ | .qualified .. => return true
    | .generic base args => andThenM (base.walkM visit) (walkTypesM visit args)
    | .pointer elem => elem.walkM visit
    | .slice elem => elem.walkM visit
    | .array _ elem => elem.walkM visit
    | .map key value => andThenM (key.walkM visit) (value.walkM visit)
    | .chan _ elem => elem.walkM visit
    | .func sig => sig.walkM visit
    | .interface elems => walkElementsM visit elems
    | .struct fields => walkFieldsM visit fields
    | .paren elem => elem.walkM visit
    | .ellipsis elem => elem.walkM visit
    | .union terms => walkTermsM visit terms

def walkTypesM (visit : TypeExpr → m Visit) : List TypeExpr → m Bool
  | [] => return true
  | t :: ts => andThenM (t.walkM visit) (walkTypesM visit ts)

def Signature.walkM (visit : TypeExpr → m Visit) : Signature → m Bool
  | ⟨params, results⟩ => andThenM (walkParamsM visit params) (walkParamsM visit results)

def walkParamsM (visit : TypeExpr → m Visit) : List Param → m Bool
  | [] => return true
  | p :: ps => andThenM (p.walkM visit) (walkParamsM visit ps)

def Param.walkM (visit : TypeExpr → m Visit) : Param → m Bool
  | ⟨_, type⟩ => type.walkM visit

def walkElementsM (visit : TypeExpr → m Visit) : List Element → m Bool
  | [] => return true
  | e :: es => andThenM (e.walkM visit) (walkElementsM visit es)

def Element.walkM (visit : TypeExpr → m Visit) : Element → m Bool
  | .method _ sig => sig.walkM visit
  | .embed type => type.walkM visit

def walkFieldsM (visit : TypeExpr → m Visit) : List Field → m Bool
  | [] => return true
  | f :: fs => andThenM (f.walkM visit) (walkFieldsM visit fs)

def Field.walkM (visit : TypeExpr → m Visit) : Field → m Bool
  | ⟨_, type, _⟩ => type.walkM visit

def walkTermsM (visit : TypeExpr → m Visit) : List Term → m Bool
  | [] => return true
  | t :: ts => andThenM (t.walkM visit) (walkTermsM visit ts)

def Term.walkM (visit : TypeExpr → m Visit) : Term → m Bool
  | ⟨_, type⟩ => type.walkM visit

end

end Effects

/-- Whether a type is a reference: a bare or a qualified name. -/
def TypeExpr.isReference : TypeExpr → Bool
  | .name _ | .qualified .. => true
  | _ => false

def Signature.references (s : Signature) : List TypeExpr :=
  (s.walk fun _ => .enter).nodes.filter (·.isReference)

/-! ## Transforming -/

/-- What is to become of a node. -/
inductive Decision where
  /-- Keep the node and go on with its children. -/
  | enter
  /-- Keep the node with all its children. -/
  | keep
  /-- Put another type in its place; it is not looked at again. -/
  | replace (type : TypeExpr)
deriving DecidableEq, Repr

section Transform

variable {m : Type → Type} [Monad m]

mutual

def TypeExpr.transformM (decide : TypeExpr → m Decision) (t : TypeExpr) : m TypeExpr := do
  match ← decide t with
  | .replace type => return type
  | .keep => return t
  | .enter => match t with
    | .name n => return .name n
    | .qualified p n => return .qualified p n
    | .generic base args => return .generic (← base.transformM decide) (← transformTypesM decide args)
    | .pointer elem => return .pointer (← elem.transformM decide)
    | .slice elem => return .slice (← elem.transformM decide)
    | .array len elem => return .array len (← elem.transformM decide)
    | .map key value => return .map (← key.transformM decide) (← value.transformM decide)
    | .chan dir elem => return .chan dir (← elem.transformM decide)
    | .func sig => return .func (← sig.transformM decide)
    | .interface elems => return .interface (← transformElementsM decide elems)
    | .struct fields => return .struct (← transformFieldsM decide fields)
    | .paren elem => return .paren (← elem.transformM decide)
    | .ellipsis elem => return .ellipsis (← elem.transformM decide)
    | .union terms => return .union (← transformTermsM decide terms)

def transformTypesM (decide : TypeExpr → m Decision) : List TypeExpr → m (List TypeExpr)
  | [] => return []
  | t :: ts => return (← t.transformM decide) :: (← transformTypesM decide ts)

def Signature.transformM (decide : TypeExpr → m Decision) : Signature → m Signature
  | ⟨params, results⟩ =>
    return ⟨← transformParamsM decide params, ← transformParamsM decide results⟩

def transformParamsM (decide : TypeExpr → m Decision) : List Param → m (List Param)
  | [] => return []
  | p :: ps => return (← p.transformM decide) :: (← transformParamsM decide ps)

def Param.transformM (decide : TypeExpr → m Decision) : Param → m Param
  | ⟨names, type⟩ => return ⟨names, ← type.transformM decide⟩

def transformElementsM (decide : TypeExpr → m Decision) : List Element → m (List Element)
  | [] => return []
  | e :: es => return (← e.transformM decide) :: (← transformElementsM decide es)

def Element.transformM (decide : TypeExpr → m Decision) : Element → m Element
  | .method name sig => return .method name (← sig.transformM decide)
  | .embed type => return .embed (← type.transformM decide)

def transformFieldsM (decide : TypeExpr → m Decision) : List Field → m (List Field)
  | [] => return []
  | f :: fs => return (← f.transformM decide) :: (← transformFieldsM decide fs)

def Field.transformM (decide : TypeExpr → m Decision) : Field → m Field
  | ⟨names, type, tag⟩ => return ⟨names, ← type.transformM decide, tag⟩

def transformTermsM (decide : TypeExpr → m Decision) : List Term → m (List Term)
  | [] => return []
  | t :: ts => return (← t.transformM decide) :: (← transformTermsM decide ts)

def Term.transformM (decide : TypeExpr → m Decision) : Term → m Term
  | ⟨tilde, type⟩ => return ⟨tilde, ← type.transformM decide⟩

end

end Transform

/-- Rebuilds a type by a decision without effects. -/
def TypeExpr.transform (decide : TypeExpr → Decision) (t : TypeExpr) : TypeExpr :=
  Id.run (t.transformM fun node => pure (decide node))

def TypeExpr.transformLog (decide : TypeExpr → Decision) (t : TypeExpr) :
    List TypeExpr × TypeExpr :=
  let log : StateM (List TypeExpr) TypeExpr := t.transformM fun node => do
    modify (· ++ [node])
    return decide node
  let (type, nodes) := Id.run (log.run [])
  (nodes, type)

end Stubwright
