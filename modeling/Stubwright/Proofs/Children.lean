import Stubwright.TypeExpr.Walk
import Mathlib

/-!
# The children of a type

A type has children, in source order, and what is done with a type goes by its children, whatever
kind of type it is.

* `TypeExpr.partsInduction`: induction over the parts of a type.
* `TypeExpr.transformM_eq`: a transformation goes by the children.
-/

namespace Stubwright

open List

open TypeExpr hiding name

/-- The types of the parameters, then of the results of a signature. -/
def Signature.types (s : Signature) : List TypeExpr :=
  (s.params ++ s.results).map (·.type)

/-- The types in an element of an interface. -/
def Element.types : Element → List TypeExpr
  | .method _ sig => (sig.params ++ sig.results).map (·.type)
  | .embed type => [type]

/-- The children of a type, in source order. -/
def TypeExpr.children : TypeExpr → List TypeExpr
  | .name _ | .qualified .. => []
  | .generic base args => base :: args
  | .map key value => [key, value]
  | .pointer elem | .slice elem | .array _ elem | .chan _ elem | .paren elem
  | .ellipsis elem => [elem]
  | .func sig => sig.types
  | .interface elems => elems.flatMap Element.types
  | .struct fields => fields.map (·.type)
  | .union terms => terms.map (·.type)

/-! ## Induction over the children -/

theorem Param.sizeOf_type_lt {p : Param} {ps : List Param} (h : p ∈ ps) :
    sizeOf p.type < sizeOf ps := by
  have := sizeOf_lt_of_mem h
  obtain ⟨names, type⟩ := p
  simp only [Param.mk.sizeOf_spec] at this ⊢
  omega

theorem Signature.sizeOf_lt_of_mem_types {s : Signature} {c : TypeExpr} (h : c ∈ s.types) :
    sizeOf c < sizeOf s := by
  obtain ⟨params, results⟩ := s
  obtain ⟨p, hp, rfl⟩ := mem_map.1 h
  rw [Signature.mk.sizeOf_spec]
  rcases mem_append.1 hp with (hp : p ∈ params) | (hp : p ∈ results)
  · have := Param.sizeOf_type_lt hp
    omega
  · have := Param.sizeOf_type_lt hp
    omega

theorem TypeExpr.sizeOf_lt_of_mem_children {t c : TypeExpr} (h : c ∈ t.children) :
    sizeOf c < sizeOf t := by
  cases t with
  | name n | qualified p n => cases h
  | generic base args =>
    have := sizeOf_lt_of_mem h
    simp only [children, List.cons.sizeOf_spec, generic.sizeOf_spec] at this ⊢
    omega
  | map key value =>
    rcases mem_pair.1 h with rfl | rfl
    · rw [map.sizeOf_spec]
      omega
    · rw [map.sizeOf_spec]
      omega
  | func sig =>
    have := Signature.sizeOf_lt_of_mem_types h
    rw [func.sizeOf_spec]
    omega
  | interface elems =>
    obtain ⟨e, he, h⟩ := mem_flatMap.1 h
    have := sizeOf_lt_of_mem he
    cases e with
    | method name sig =>
      have := Signature.sizeOf_lt_of_mem_types h
      simp only [Element.method.sizeOf_spec, interface.sizeOf_spec] at *
      omega
    | embed type =>
      obtain rfl := mem_singleton.1 h
      simp only [Element.embed.sizeOf_spec, interface.sizeOf_spec] at *
      omega
  | struct fields =>
    obtain ⟨⟨names, type, tag⟩, hf, rfl⟩ := mem_map.1 h
    have := sizeOf_lt_of_mem hf
    simp only [Field.mk.sizeOf_spec, struct.sizeOf_spec] at *
    omega
  | union terms =>
    obtain ⟨⟨tilde, type⟩, ht, rfl⟩ := mem_map.1 h
    have := sizeOf_lt_of_mem ht
    simp only [Term.mk.sizeOf_spec, union.sizeOf_spec] at *
    omega
  | pointer elem | slice elem | array len elem | chan dir elem | paren elem | ellipsis elem =>
    obtain rfl := mem_singleton.1 h
    simp

/-- What holds of a type whenever it holds of its children holds of every type. -/
theorem TypeExpr.childrenInduction {P : TypeExpr → Prop}
    (step : ∀ t : TypeExpr, (∀ c ∈ t.children, P c) → P t) (t : TypeExpr) : P t := by
  induction hn : sizeOf t using Nat.strongRecOn generalizing t with
  | _ n ih =>
    subst hn
    exact step t fun c hc => ih _ (sizeOf_lt_of_mem_children hc) c rfl

def Signature.Each (P : TypeExpr → Prop) (s : Signature) : Prop :=
  (∀ p ∈ s.params, P p.type) ∧ ∀ p ∈ s.results, P p.type

/-- A property of every type in an element of an interface. -/
def Element.Each (P : TypeExpr → Prop) : Element → Prop
  | .method _ sig => sig.Each P
  | .embed type => P type

/-- What holds of a type whenever it holds of its parts holds of every type. -/
@[elab_as_elim]
theorem TypeExpr.partsInduction {P : TypeExpr → Prop}
    (name : ∀ n, P (.name n)) (qualified : ∀ p n, P (.qualified p n))
    (generic : ∀ base args, P base → (∀ a ∈ args, P a) → P (.generic base args))
    (pointer : ∀ elem, P elem → P (.pointer elem)) (slice : ∀ elem, P elem → P (.slice elem))
    (array : ∀ len elem, P elem → P (.array len elem))
    (map : ∀ key value, P key → P value → P (.map key value))
    (chan : ∀ dir elem, P elem → P (.chan dir elem)) (func : ∀ sig, sig.Each P → P (.func sig))
    (interface : ∀ elems, (∀ e ∈ elems, e.Each P) → P (.interface elems))
    (struct : ∀ fields, (∀ f ∈ fields, P f.type) → P (.struct fields))
    (paren : ∀ elem, P elem → P (.paren elem))
    (ellipsis : ∀ elem, P elem → P (.ellipsis elem))
    (union : ∀ terms, (∀ t ∈ terms, P t.type) → P (.union terms)) (t : TypeExpr) : P t := by
  have hsig : ∀ sig : Signature, (∀ c ∈ sig.types, P c) → sig.Each P := by
    intro sig h
    exact ⟨fun p hp => h _ (mem_map_of_mem (mem_append_left _ hp)),
      fun p hp => h _ (mem_map_of_mem (mem_append_right _ hp))⟩
  induction t using childrenInduction with
  | step t ih =>
    cases t with
    | name n => exact name n
    | qualified p n => exact qualified p n
    | generic base args =>
      exact generic base args (ih base (.head _)) fun a ha => ih a (.tail _ ha)
    | pointer elem => exact pointer elem (ih elem (.head _))
    | slice elem => exact slice elem (ih elem (.head _))
    | array len elem => exact array len elem (ih elem (.head _))
    | map key value => exact map key value (ih key (.head _)) (ih value (.tail _ (.head _)))
    | chan dir elem => exact chan dir elem (ih elem (.head _))
    | func sig => exact func sig (hsig sig ih)
    | interface elems =>
      refine interface elems fun e he => ?_
      cases e with
      | method name sig => exact hsig sig fun c hc => ih c (mem_flatMap_of_mem he hc)
      | embed type => exact ih type (mem_flatMap_of_mem he (.head _))
    | struct fields => exact struct fields fun f hf => ih _ (mem_map_of_mem hf)
    | paren elem => exact paren elem (ih elem (.head _))
    | ellipsis elem => exact ellipsis elem (ih elem (.head _))
    | union terms => exact union terms fun t ht => ih _ (mem_map_of_mem ht)

/-! ## Other children -/

def Param.withTypes (ps : List Param) (types : List TypeExpr) : List Param :=
  ps.zipWith (fun p type => ⟨p.names, type⟩) types

/-- A signature with other types for its parameters, then for its results. -/
def Signature.withTypes (s : Signature) (types : List TypeExpr) : Signature :=
  ⟨Param.withTypes s.params (types.take s.params.length),
    Param.withTypes s.results (types.drop s.params.length)⟩

def Element.withTypes : Element → List TypeExpr → Element
  | .method name sig, types => .method name (sig.withTypes types)
  | .embed type, types => .embed (types.headD type)

def Element.allWithTypes : List Element → List TypeExpr → List Element
  | [], _ => []
  | e :: es, types =>
    e.withTypes (types.take e.types.length) :: allWithTypes es (types.drop e.types.length)

/-- A type with other children, as many as it has. -/
def TypeExpr.withChildren : TypeExpr → List TypeExpr → TypeExpr
  | .name n, _ => .name n
  | .qualified p n, _ => .qualified p n
  | .generic base _, types => .generic (types.headD base) types.tail
  | .pointer elem, types => .pointer (types.headD elem)
  | .slice elem, types => .slice (types.headD elem)
  | .array len elem, types => .array len (types.headD elem)
  | .map key value, types => .map (types.headD key) (types.tail.headD value)
  | .chan dir elem, types => .chan dir (types.headD elem)
  | .func sig, types => .func (sig.withTypes types)
  | .interface elems, types => .interface (Element.allWithTypes elems types)
  | .struct fields, types =>
    .struct (fields.zipWith (fun f type => ⟨f.names, type, f.tag⟩) types)
  | .paren elem, types => .paren (types.headD elem)
  | .ellipsis elem, types => .ellipsis (types.headD elem)
  | .union terms, types => .union (terms.zipWith (fun t type => ⟨t.tilde, type⟩) types)

section Parts

-- A part of a type that has one type of its own: `g` reads it, and `f` puts another in its place.
variable {α β : Type} {f : α → β → α} {g : α → β} {as : List α} {bs : List β}

theorem map_zipWith_right (hf : ∀ a b, g (f a b) = b) (h : bs.length = as.length) :
    (as.zipWith f bs).map g = bs := by
  induction as generalizing bs with
  | nil => exact (length_eq_zero_iff.1 h).symm
  | cons a as ih =>
    cases bs with
    | nil => cases h
    | cons b bs => rw [zipWith_cons_cons, map_cons, hf, ih (Nat.succ.inj h)]

theorem zipWith_map_self (hf : ∀ a, f a (g a) = a) (as : List α) :
    as.zipWith f (as.map g) = as := by
  rw [zipWith_map_right, zipWith_self]
  exact (map_congr_left fun a _ => hf a).trans (map_id as)

theorem zipWith_zipWith (hf : ∀ a b c, f (f a b) c = f a c) (h : bs.length = as.length)
    (cs : List β) : (as.zipWith f bs).zipWith f cs = as.zipWith f cs := by
  induction as generalizing bs cs with
  | nil => rfl
  | cons a as ih =>
    cases bs with
    | nil => cases h
    | cons b bs =>
      cases cs with
      | nil => rfl
      | cons c cs =>
        rw [zipWith_cons_cons, zipWith_cons_cons, zipWith_cons_cons, hf,
          ih (Nat.succ.inj h)]

end Parts

section Types

variable {s : Signature} {e : Element} {es : List Element} {types : List TypeExpr}
  {types' : List TypeExpr}

theorem Signature.length_types : s.types.length = s.params.length + s.results.length := by
  rw [Signature.types, length_map, length_append]

theorem Signature.types_withTypes (h : types.length = s.types.length) :
    (s.withTypes types).types = types := by
  rw [Signature.length_types] at h
  rw [Signature.types, map_append, Signature.withTypes, Param.withTypes, Param.withTypes,
    map_zipWith_right (fun _ _ => rfl), map_zipWith_right (fun _ _ => rfl), take_append_drop]
  · rw [length_drop]
    omega
  · rw [length_take]
    omega

theorem Signature.withTypes_types (s : Signature) : s.withTypes s.types = s := by
  obtain ⟨params, results⟩ := s
  rw [Signature.withTypes, Signature.types, map_append, take_left' (length_map _),
    drop_left' (length_map _), Param.withTypes, Param.withTypes,
    zipWith_map_self (fun p => by cases p; rfl), zipWith_map_self (fun p => by cases p; rfl)]

theorem Signature.withTypes_withTypes (h : types.length = s.types.length)
    (types' : List TypeExpr) : (s.withTypes types).withTypes types' = s.withTypes types' := by
  rw [Signature.length_types] at h
  have htake : (types.take s.params.length).length = s.params.length := by
    rw [length_take]
    omega
  have hdrop : (types.drop s.params.length).length = s.results.length := by
    rw [length_drop]
    omega
  have hlength : (s.params.zipWith (fun p type => ⟨p.names, type⟩ : Param → TypeExpr → Param)
      (types.take s.params.length)).length = s.params.length := by
    rw [length_zipWith, htake, Nat.min_self]
  simp only [Signature.withTypes, Param.withTypes, hlength]
  exact congrArg₂ Signature.mk (zipWith_zipWith (by intros; rfl) htake _)
    (zipWith_zipWith (by intros; rfl) hdrop _)

theorem Element.types_withTypes (h : types.length = e.types.length) :
    (e.withTypes types).types = types := by
  cases e with
  | method name sig => exact Signature.types_withTypes h
  | embed type =>
    obtain ⟨type', rfl⟩ := length_eq_one_iff.1 h
    rfl

theorem Element.withTypes_types (e : Element) : e.withTypes e.types = e := by
  cases e with
  | method name sig => exact congrArg (Element.method name) sig.withTypes_types
  | embed type => rfl

theorem Element.withTypes_withTypes (h : types.length = e.types.length)
    (h' : types'.length = e.types.length) :
    (e.withTypes types).withTypes types' = e.withTypes types' := by
  cases e with
  | method name sig => exact congrArg (Element.method name) (Signature.withTypes_withTypes h types')
  | embed type =>
    obtain ⟨type', rfl⟩ := length_eq_one_iff.1 h'
    rfl

theorem Element.length_take_drop (h : types.length = ((e :: es).flatMap Element.types).length) :
    (types.take e.types.length).length = e.types.length ∧
      (types.drop e.types.length).length = (es.flatMap Element.types).length := by
  rw [flatMap_cons, length_append] at h
  rw [length_take, length_drop]
  omega

theorem Element.flatMap_allWithTypes (h : types.length = (es.flatMap Element.types).length) :
    (Element.allWithTypes es types).flatMap Element.types = types := by
  induction es generalizing types with
  | nil => exact (length_eq_zero_iff.1 h).symm
  | cons e es ih =>
    obtain ⟨htake, hdrop⟩ := Element.length_take_drop h
    rw [Element.allWithTypes, flatMap_cons, Element.types_withTypes htake, ih hdrop,
      take_append_drop]

theorem Element.allWithTypes_types (es : List Element) :
    Element.allWithTypes es (es.flatMap Element.types) = es := by
  induction es with
  | nil => rfl
  | cons e es ih =>
    rw [Element.allWithTypes, flatMap_cons, take_left, drop_left,
      Element.withTypes_types, ih]

theorem Element.allWithTypes_allWithTypes
    (h : types.length = (es.flatMap Element.types).length)
    (h' : types'.length = (es.flatMap Element.types).length) :
    Element.allWithTypes (Element.allWithTypes es types) types'
      = Element.allWithTypes es types' := by
  induction es generalizing types types' with
  | nil => rfl
  | cons e es ih =>
    obtain ⟨htake, hdrop⟩ := Element.length_take_drop h
    obtain ⟨htake', hdrop'⟩ := Element.length_take_drop h'
    rw [Element.allWithTypes, Element.allWithTypes, Element.types_withTypes htake, htake,
      Element.withTypes_withTypes htake htake', ih hdrop hdrop', Element.allWithTypes]

end Types

section Children

variable {t : TypeExpr} {types : List TypeExpr}

theorem TypeExpr.children_withChildren (h : types.length = t.children.length) :
    (t.withChildren types).children = types := by
  cases t with
  | name n | qualified p n => exact (length_eq_zero_iff.1 h).symm
  | generic base args =>
    cases types with
    | nil => cases h
    | cons type types => rfl
  | map key value =>
    obtain ⟨key', value', rfl⟩ := length_eq_two.1 h
    rfl
  | func sig => exact Signature.types_withTypes h
  | interface elems => exact Element.flatMap_allWithTypes h
  | struct fields | union terms =>
    exact map_zipWith_right (fun _ _ => rfl) (by simpa [children] using h)
  | pointer elem | slice elem | array len elem | chan dir elem | paren elem | ellipsis elem =>
    obtain ⟨type, rfl⟩ := length_eq_one_iff.1 h
    rfl

theorem TypeExpr.withChildren_children (t : TypeExpr) : t.withChildren t.children = t := by
  cases t with
  | func sig => exact congrArg func sig.withTypes_types
  | interface elems => exact congrArg interface (Element.allWithTypes_types elems)
  | struct fields =>
    exact congrArg struct (zipWith_map_self (fun f => by cases f; rfl) fields)
  | union terms =>
    exact congrArg union (zipWith_map_self (fun t => by cases t; rfl) terms)
  | name n | qualified p n | generic base args | pointer elem | slice elem | array len elem
  | map key value | chan dir elem | paren elem | ellipsis elem => rfl

/-- Of children that are put in their places one after the other the last ones stay. -/
theorem TypeExpr.withChildren_withChildren (h : types.length = t.children.length)
    {types' : List TypeExpr} (h' : types'.length = t.children.length) :
    (t.withChildren types).withChildren types' = t.withChildren types' := by
  cases t with
  | name n | qualified p n => rfl
  | generic base args =>
    cases types' with
    | nil => cases h'
    | cons type types => rfl
  | map key value =>
    obtain ⟨key', value', rfl⟩ := length_eq_two.1 h'
    rfl
  | func sig => exact congrArg func (Signature.withTypes_withTypes h types')
  | interface elems =>
    exact congrArg interface (Element.allWithTypes_allWithTypes h h')
  | struct fields =>
    exact congrArg struct
      (zipWith_zipWith (by intros; rfl) (by simpa [children] using h) types')
  | union terms =>
    exact congrArg union
      (zipWith_zipWith (by intros; rfl) (by simpa [children] using h) types')
  | pointer elem | slice elem | array len elem | chan dir elem | paren elem | ellipsis elem =>
    obtain ⟨type, rfl⟩ := length_eq_one_iff.1 h'
    rfl

end Children

/-! ## Transformations -/

section Transform

variable {m : Type → Type} [Monad m] [LawfulMonad m] (decide : TypeExpr → m Decision)

/-- A list of types in two parts is rebuilt part by part. -/
theorem transformTypesM_append_bind {β : Type} (ts us : List TypeExpr)
    (f : List TypeExpr → List TypeExpr → m β) :
    (transformTypesM decide (ts ++ us) >>= fun vs => f (vs.take ts.length) (vs.drop ts.length))
      = transformTypesM decide ts >>= fun vs => transformTypesM decide us >>= f vs := by
  induction ts generalizing f with
  | nil => simp [transformTypesM]
  | cons t ts ih =>
    simp only [cons_append, transformTypesM, bind_assoc, pure_bind]
    exact bind_congr fun v => ih fun vs => f (v :: vs)

theorem transformParamsM_eq (ps : List Param) :
    transformParamsM decide ps
      = Param.withTypes ps <$> transformTypesM decide (ps.map (·.type)) := by
  induction ps with
  | nil => simp [transformParamsM, transformTypesM, Param.withTypes]
  | cons p ps ih =>
    obtain ⟨names, type⟩ := p
    simp [transformParamsM, Param.transformM, transformTypesM, Param.withTypes, ih]

/-- A signature is rebuilt by rebuilding its types. -/
theorem Signature.transformM_eq (s : Signature) :
    s.transformM decide = do return s.withTypes (← transformTypesM decide s.types) := by
  obtain ⟨params, results⟩ := s
  have happend := transformTypesM_append_bind decide (params.map (·.type)) (results.map (·.type))
    fun vs ws => pure (Signature.mk (Param.withTypes params vs) (Param.withTypes results ws))
  rw [length_map, ← map_append] at happend
  refine Eq.trans ?_ happend.symm
  simp [Signature.transformM, transformParamsM_eq]

theorem transformElementsM_eq (es : List Element) :
    transformElementsM decide es
      = Element.allWithTypes es <$> transformTypesM decide (es.flatMap Element.types) := by
  induction es with
  | nil => simp [transformElementsM, transformTypesM, Element.allWithTypes]
  | cons e es ih =>
    have happend := transformTypesM_append_bind decide e.types (es.flatMap Element.types)
      fun vs ws => pure (e.withTypes vs :: Element.allWithTypes es ws)
    rw [← bind_pure_comp, flatMap_cons]
    refine Eq.trans ?_ happend.symm
    cases e with
    | method name sig =>
      simp [transformElementsM, Element.transformM, Signature.transformM_eq, ih, Element.withTypes,
        Element.types, Signature.types]
    | embed type =>
      simp [transformElementsM, Element.transformM, ih, Element.types, Element.withTypes,
        transformTypesM]

theorem transformFieldsM_eq (fs : List Field) :
    transformFieldsM decide fs
      = fs.zipWith (fun f type => ⟨f.names, type, f.tag⟩)
        <$> transformTypesM decide (fs.map (·.type)) := by
  induction fs with
  | nil => simp [transformFieldsM, transformTypesM]
  | cons f fs ih =>
    obtain ⟨names, type, tag⟩ := f
    simp [transformFieldsM, Field.transformM, transformTypesM, ih]

theorem transformTermsM_eq (ts : List Term) :
    transformTermsM decide ts
      = ts.zipWith (fun t type => ⟨t.tilde, type⟩)
        <$> transformTypesM decide (ts.map (·.type)) := by
  induction ts with
  | nil => simp [transformTermsM, transformTypesM]
  | cons t ts ih =>
    obtain ⟨tilde, type⟩ := t
    simp [transformTermsM, Term.transformM, transformTypesM, ih]

/-- What becomes of a node once it is decided on. -/
def Decision.thenM (decision : Decision) (t : TypeExpr) (children : m (List TypeExpr)) :
    m TypeExpr :=
  match decision with
  | .replace type => return type
  | .keep => return t
  | .enter => return t.withChildren (← children)

/-- A transformation decides on the node and then, if it is to be entered, rebuilds the children and
puts them in their places. -/
theorem TypeExpr.transformM_eq (t : TypeExpr) :
    t.transformM decide
      = decide t >>= fun d => d.thenM t (transformTypesM decide t.children) := by
  rw [transformM.eq_def]
  refine bind_congr fun d => ?_
  cases d with
  | replace type => rfl
  | keep => rfl
  | enter =>
    cases t with
    | func sig => simp [Decision.thenM, Signature.transformM_eq, children, withChildren]
    | interface elems => simp [Decision.thenM, transformElementsM_eq, children, withChildren]
    | struct fields => simp [Decision.thenM, transformFieldsM_eq, children, withChildren]
    | union terms => simp [Decision.thenM, transformTermsM_eq, children, withChildren]
    | name n | qualified p n | generic base args | pointer elem | slice elem | array len elem
    | map key value | chan dir elem | paren elem | ellipsis elem =>
      simp [Decision.thenM, transformTypesM, children, withChildren]

end Transform

end Stubwright
