/-!
# Type expressions

The types of the Go language as they are written: names, composite types, and function, interface
and struct literals.  A type expression has no place in a text; it is compared, rebuilt and printed
freely.  Interfaces and structs keep their elements in source order, parameters and fields keep the
groups they were written in, and an array keeps the text of its length.

Equality of type expressions is decided by `TypeExpr.same`, which follows the two trees.
-/

namespace Stubwright

/-- The direction of a channel. -/
inductive ChanDir where
  /-- Both ways, `chan T`. -/
  | both
  /-- Only to send, `chan<- T`. -/
  | send
  /-- Only to receive, `<-chan T`. -/
  | recv
deriving DecidableEq, Repr, Inhabited

mutual

/-- A type as it is written. -/
inductive TypeExpr where
  | name (name : String)
  /-- A name of another package, `package.name`. -/
  | qualified (package name : String)
  /-- An instantiated type, `base[args]`. -/
  | generic (base : TypeExpr) (args : List TypeExpr)
  /-- A pointer, `*elem`. -/
  | pointer (elem : TypeExpr)
  /-- A slice, `[]elem`. -/
  | slice (elem : TypeExpr)
  /-- An array; the length is kept as written. -/
  | array (len : String) (elem : TypeExpr)
  /-- A map, `map[key]value`. -/
  | map (key value : TypeExpr)
  | chan (dir : ChanDir) (elem : TypeExpr)
  | func (sig : Signature)
  | interface (elems : List Element)
  | struct (fields : List Field)
  | paren (elem : TypeExpr)
  /-- The type of a final parameter that takes any number of values, `...elem`. -/
  | ellipsis (elem : TypeExpr)
  | union (terms : List Term)

/-- The parameters and results of a function. -/
structure Signature where
  params : List Param
  results : List Param

/-- A group of parameters or results of one type. -/
structure Param where
  /-- The names of the group; none for a single parameter without a name. -/
  names : List String
  type : TypeExpr

/-- An element of an interface literal. -/
inductive Element where
  | method (name : String) (sig : Signature)
  | embed (type : TypeExpr)

/-- A group of fields of a struct, or an embedded field. -/
structure Field where
  /-- The names of the group; none for an embedded field. -/
  names : List String
  type : TypeExpr
  /-- The tag literal as written, quotes included. -/
  tag : Option String

/-- A term of a union. -/
structure Term where
  /-- Whether the term stands for every type with this underlying type. -/
  tilde : Bool
  type : TypeExpr

end

deriving instance Inhabited, Repr for TypeExpr, Signature, Param, Element, Field, Term

/-! ## Parts of a type -/

/-- The type without any parentheses around it. -/
def TypeExpr.unparen : TypeExpr → TypeExpr
  | .paren elem => elem.unparen
  | t => t

/-- A parameter without a name. -/
def Param.unnamed (type : TypeExpr) : Param :=
  ⟨[], type⟩

/-- How many values a group of parameters stands for. -/
def Param.arity (p : Param) : Nat :=
  max p.names.length 1

/-- Whether a type is written as that of a variadic parameter. -/
def TypeExpr.isEllipsis : TypeExpr → Bool
  | .ellipsis _ => true
  | _ => false

/-- Whether the final parameter takes any number of values. -/
def Signature.isVariadic (s : Signature) : Bool :=
  s.params.getLast?.any (·.type.isEllipsis)

/-- Whether a field is embedded: it has no name of its own. -/
def Field.isEmbedded (f : Field) : Bool :=
  f.names.isEmpty

/-- A method of an interface. -/
structure Method where
  name : String
  /-- Its parameters and results. -/
  sig : Signature
deriving Inhabited, Repr

/-- The methods among the elements of an interface, in order. -/
def Element.methods (elems : List Element) : List Method :=
  elems.filterMap fun
    | .method name sig => some ⟨name, sig⟩
    | .embed _ => none

/-- The types that elements of an interface embed, in order. -/
def Element.embeds (elems : List Element) : List TypeExpr :=
  elems.filterMap fun
    | .method .. => none
    | .embed type => some type

/-! ## Equality -/

mutual

/-- Whether two types are the same tree. -/
def TypeExpr.same : TypeExpr → TypeExpr → Bool
  | .name n, .name n' => n == n'
  | .qualified p n, .qualified p' n' => p == p' && n == n'
  | .generic b as, .generic b' as' => b.same b' && sameTypes as as'
  | .pointer t, .pointer t' => t.same t'
  | .slice t, .slice t' => t.same t'
  | .array l t, .array l' t' => l == l' && t.same t'
  | .map k v, .map k' v' => k.same k' && v.same v'
  | .chan d t, .chan d' t' => d == d' && t.same t'
  | .func s, .func s' => s.same s'
  | .interface es, .interface es' => sameElements es es'
  | .struct fs, .struct fs' => sameFields fs fs'
  | .paren t, .paren t' => t.same t'
  | .ellipsis t, .ellipsis t' => t.same t'
  | .union ts, .union ts' => sameTerms ts ts'
  | _, _ => false

/-- Whether two lists of types are the same; the functions below say so of their parts. -/
def sameTypes : List TypeExpr → List TypeExpr → Bool
  | [], [] => true
  | t :: ts, t' :: ts' => t.same t' && sameTypes ts ts'
  | _, _ => false

/-- Whether two signatures are the same, names of parameters included. -/
def Signature.same : Signature → Signature → Bool
  | ⟨ps, rs⟩, ⟨ps', rs'⟩ => sameParams ps ps' && sameParams rs rs'

def sameParams : List Param → List Param → Bool
  | [], [] => true
  | p :: ps, p' :: ps' => p.same p' && sameParams ps ps'
  | _, _ => false

def Param.same : Param → Param → Bool
  | ⟨ns, t⟩, ⟨ns', t'⟩ => ns == ns' && t.same t'

def sameElements : List Element → List Element → Bool
  | [], [] => true
  | e :: es, e' :: es' => e.same e' && sameElements es es'
  | _, _ => false

def Element.same : Element → Element → Bool
  | .method n s, .method n' s' => n == n' && s.same s'
  | .embed t, .embed t' => t.same t'
  | _, _ => false

def sameFields : List Field → List Field → Bool
  | [], [] => true
  | f :: fs, f' :: fs' => f.same f' && sameFields fs fs'
  | _, _ => false

def Field.same : Field → Field → Bool
  | ⟨ns, t, tag⟩, ⟨ns', t', tag'⟩ => ns == ns' && t.same t' && tag == tag'

def sameTerms : List Term → List Term → Bool
  | [], [] => true
  | t :: ts, t' :: ts' => t.same t' && sameTerms ts ts'
  | _, _ => false

def Term.same : Term → Term → Bool
  | ⟨b, t⟩, ⟨b', t'⟩ => b == b' && t.same t'

end

mutual

/-- The test for equal types is exact. -/
theorem TypeExpr.same_iff : (t t' : TypeExpr) → (t.same t' = true ↔ t = t')
  | .name n, t' => by cases t' <;> simp [TypeExpr.same]
  | .qualified p n, t' => by cases t' <;> simp [TypeExpr.same]
  | .generic b as, t' => by
    cases t' <;> simp [TypeExpr.same, TypeExpr.same_iff b, sameTypes_iff as]
  | .pointer t, t' => by cases t' <;> simp [TypeExpr.same, TypeExpr.same_iff t]
  | .slice t, t' => by cases t' <;> simp [TypeExpr.same, TypeExpr.same_iff t]
  | .array l t, t' => by cases t' <;> simp [TypeExpr.same, TypeExpr.same_iff t]
  | .map k v, t' => by
    cases t' <;> simp [TypeExpr.same, TypeExpr.same_iff k, TypeExpr.same_iff v]
  | .chan d t, t' => by cases t' <;> simp [TypeExpr.same, TypeExpr.same_iff t]
  | .func s, t' => by cases t' <;> simp [TypeExpr.same, Signature.same_iff s]
  | .interface es, t' => by cases t' <;> simp [TypeExpr.same, sameElements_iff es]
  | .struct fs, t' => by cases t' <;> simp [TypeExpr.same, sameFields_iff fs]
  | .paren t, t' => by cases t' <;> simp [TypeExpr.same, TypeExpr.same_iff t]
  | .ellipsis t, t' => by cases t' <;> simp [TypeExpr.same, TypeExpr.same_iff t]
  | .union ts, t' => by cases t' <;> simp [TypeExpr.same, sameTerms_iff ts]

theorem sameTypes_iff : (ts ts' : List TypeExpr) → (sameTypes ts ts' = true ↔ ts = ts')
  | [], ts' => by cases ts' <;> simp [sameTypes]
  | t :: ts, ts' => by
    cases ts' <;> simp [sameTypes, TypeExpr.same_iff t, sameTypes_iff ts]

theorem Signature.same_iff : (s s' : Signature) → (s.same s' = true ↔ s = s')
  | ⟨ps, rs⟩, ⟨ps', rs'⟩ => by simp [Signature.same, sameParams_iff ps, sameParams_iff rs]

theorem sameParams_iff : (ps ps' : List Param) → (sameParams ps ps' = true ↔ ps = ps')
  | [], ps' => by cases ps' <;> simp [sameParams]
  | p :: ps, ps' => by
    cases ps' <;> simp [sameParams, Param.same_iff p, sameParams_iff ps]

/-- The test for equal groups of parameters is exact. -/
theorem Param.same_iff : (p p' : Param) → (p.same p' = true ↔ p = p')
  | ⟨ns, t⟩, ⟨ns', t'⟩ => by simp [Param.same, TypeExpr.same_iff t]

theorem sameElements_iff : (es es' : List Element) → (sameElements es es' = true ↔ es = es')
  | [], es' => by cases es' <;> simp [sameElements]
  | e :: es, es' => by
    cases es' <;> simp [sameElements, Element.same_iff e, sameElements_iff es]

theorem Element.same_iff : (e e' : Element) → (e.same e' = true ↔ e = e')
  | .method n s, e' => by cases e' <;> simp [Element.same, Signature.same_iff s]
  | .embed t, e' => by cases e' <;> simp [Element.same, TypeExpr.same_iff t]

theorem sameFields_iff : (fs fs' : List Field) → (sameFields fs fs' = true ↔ fs = fs')
  | [], fs' => by cases fs' <;> simp [sameFields]
  | f :: fs, fs' => by
    cases fs' <;> simp [sameFields, Field.same_iff f, sameFields_iff fs]

/-- The test for equal groups of fields is exact. -/
theorem Field.same_iff : (f f' : Field) → (f.same f' = true ↔ f = f')
  | ⟨ns, t, tag⟩, ⟨ns', t', tag'⟩ => by simp [Field.same, TypeExpr.same_iff t, and_assoc]

theorem sameTerms_iff : (ts ts' : List Term) → (sameTerms ts ts' = true ↔ ts = ts')
  | [], ts' => by cases ts' <;> simp [sameTerms]
  | t :: ts, ts' => by
    cases ts' <;> simp [sameTerms, Term.same_iff t, sameTerms_iff ts]

theorem Term.same_iff : (t t' : Term) → (t.same t' = true ↔ t = t')
  | ⟨b, t⟩, ⟨b', t'⟩ => by simp [Term.same, TypeExpr.same_iff t]

end

instance : DecidableEq TypeExpr := fun t t' =>
  decidable_of_iff (t.same t' = true) (TypeExpr.same_iff t t')

instance : DecidableEq Signature := fun s s' =>
  decidable_of_iff (s.same s' = true) (Signature.same_iff s s')

instance : DecidableEq Param := fun p p' =>
  decidable_of_iff (p.same p' = true) (Param.same_iff p p')

deriving instance DecidableEq for Method

end Stubwright
