import Stubwright.Proofs.Walk.Transform

/-!
# References of a type and passes over them

A type is a shape with references in it: bare and qualified names.  `TypeExpr.skeleton` blanks the
references and keeps all else (names of parameters and fields, lengths of arrays, tags,
parentheses); `TypeExpr.references` lists them in source order.

* `Signature.rebuilds_transformM`: all but the references stays.
-/

namespace Stubwright

open List

open TypeExpr hiding name

/-- What a list is related to, member by member, has a member for each of its own. -/
theorem exists_related_of_mem {α β : Type} {R : α → β → Prop} {as : List α} {bs : List β}
    (h : List.Forall₂ R as bs) {b : β} (hb : b ∈ bs) : ∃ a ∈ as, R a b := by
  induction h with
  | nil => cases hb
  | cons hab _ ih =>
    rcases mem_cons.1 hb with rfl | hb
    · exact ⟨_, mem_cons_self, hab⟩
    · obtain ⟨a, ha, hab⟩ := ih hb
      exact ⟨a, mem_cons_of_mem _ ha, hab⟩

/-! ## References -/

/-- The visitor that enters every node. -/
abbrev enterAll : TypeExpr → Visit := fun _ => .enter

/-- The references among the nodes of a walk. -/
def Visited.references (v : Visited) : List TypeExpr :=
  v.nodes.filter (·.isReference)

/-- The references of a type in source order. -/
def TypeExpr.references (t : TypeExpr) : List TypeExpr :=
  (t.walk enterAll).references

theorem TypeExpr.completed_walk (t : TypeExpr) : (t.walk enterAll).completed = true := by
  induction t using childrenInduction with
  | step t ih =>
    rw [walk_eq, walkTypes_eq_of_completed ih]
    rfl

theorem references_walkTypes (ts : List TypeExpr) :
    (walkTypes enterAll ts).references = ts.flatMap references := by
  rw [walkTypes_eq_of_completed fun t _ => t.completed_walk, Visited.references,
    filter_flatMap]
  rfl

theorem Signature.references_eq (s : Signature) :
    s.references = s.types.flatMap TypeExpr.references := by
  rw [← references_walkTypes, ← Signature.walk_eq]
  rfl

/-- The references of an element of an interface in source order. -/
def Element.references : Element → List TypeExpr
  | .method _ sig => sig.references
  | .embed type => type.references

@[simp] theorem Signature.references_mk (params results : List Param) :
    (Signature.mk params results).references
      = params.flatMap (·.type.references) ++ results.flatMap (·.type.references) := by
  rw [Signature.references_eq, Signature.types, flatMap_map, flatMap_append]

namespace TypeExpr

theorem references_of_isReference {t : TypeExpr} (h : t.isReference = true) :
    t.references = [t] := by
  cases t <;> first | rfl | cases h

theorem references_node {t : TypeExpr} (h : t.isReference = false) :
    t.references = t.children.flatMap references := by
  rw [← references_walkTypes, references, walk_eq]
  simp [Visited.andThen, Visited.references, h]

@[simp] theorem references_name (n : String) : (name n).references = [.name n] := rfl

@[simp] theorem references_qualified (p n : String) :
    (qualified p n).references = [.qualified p n] := rfl

@[simp] theorem references_generic (base : TypeExpr) (args : List TypeExpr) :
    (generic base args).references = base.references ++ args.flatMap references :=
  references_node rfl

@[simp] theorem references_pointer (elem : TypeExpr) :
    (pointer elem).references = elem.references := by
  simp [references_node (t := pointer elem) rfl, children]

@[simp] theorem references_slice (elem : TypeExpr) :
    (slice elem).references = elem.references := by
  simp [references_node (t := slice elem) rfl, children]

@[simp] theorem references_array (len : String) (elem : TypeExpr) :
    (array len elem).references = elem.references := by
  simp [references_node (t := array len elem) rfl, children]

@[simp] theorem references_map (key value : TypeExpr) :
    (map key value).references = key.references ++ value.references := by
  simp [references_node (t := map key value) rfl, children]

@[simp] theorem references_chan (dir : ChanDir) (elem : TypeExpr) :
    (chan dir elem).references = elem.references := by
  simp [references_node (t := chan dir elem) rfl, children]

@[simp] theorem references_func (sig : Signature) : (func sig).references = sig.references :=
  (references_node rfl).trans sig.references_eq.symm

@[simp] theorem references_interface (elems : List Element) :
    (interface elems).references = elems.flatMap Element.references := by
  rw [references_node rfl, children, flatMap_assoc]
  refine congrArg (elems.flatMap ·) (funext fun e => ?_)
  cases e with
  | method name sig => exact sig.references_eq.symm
  | embed type => exact append_nil _

@[simp] theorem references_struct (fields : List Field) :
    (struct fields).references = fields.flatMap (·.type.references) := by
  rw [references_node rfl, children, flatMap_map]

@[simp] theorem references_paren (elem : TypeExpr) :
    (paren elem).references = elem.references := by
  simp [references_node (t := paren elem) rfl, children]

@[simp] theorem references_ellipsis (elem : TypeExpr) :
    (ellipsis elem).references = elem.references := by
  simp [references_node (t := ellipsis elem) rfl, children]

@[simp] theorem references_union (terms : List Term) :
    (union terms).references = terms.flatMap (·.type.references) := by
  rw [references_node rfl, children, flatMap_map]

end TypeExpr

/-! ## Skeletons -/

/-- The decision that blanks references and keeps everything else. -/
def blankReference : TypeExpr → Decision
  | .name _ | .qualified .. => .replace (.name "")
  | _ => .enter

/-- A type with its references blanked. -/
def TypeExpr.skeleton (t : TypeExpr) : TypeExpr :=
  t.transform blankReference

/-- A signature with its references blanked. -/
def Signature.skeleton (s : Signature) : Signature :=
  Id.run (s.transformM fun node => pure (blankReference node))

/-- A group of parameters with its references blanked. -/
def Param.skeleton (p : Param) : Param :=
  ⟨p.names, p.type.skeleton⟩

/-- An element of an interface with its references blanked. -/
def Element.skeleton : Element → Element
  | .method name sig => .method name sig.skeleton
  | .embed type => .embed type.skeleton

/-- A group of fields with its references blanked. -/
def Field.skeleton (f : Field) : Field :=
  ⟨f.names, f.type.skeleton, f.tag⟩

/-- A term of a union with its references blanked. -/
def Term.skeleton (t : Term) : Term :=
  ⟨t.tilde, t.type.skeleton⟩

theorem Param.withTypes_skeleton (ps : List Param) :
    Param.withTypes ps ((ps.map (·.type)).map TypeExpr.skeleton) = ps.map Param.skeleton := by
  rw [Param.withTypes, map_map, zipWith_map_right, zipWith_self]
  rfl

theorem Signature.skeleton_eq (s : Signature) :
    s.skeleton = s.withTypes (s.types.map TypeExpr.skeleton) := by
  rw [Signature.skeleton, Signature.transformM_eq, transformTypesM_pure]
  rfl

@[simp] theorem Signature.skeleton_mk (params results : List Param) :
    (Signature.mk params results).skeleton
      = ⟨params.map Param.skeleton, results.map Param.skeleton⟩ := by
  rw [Signature.skeleton_eq, Signature.withTypes, Signature.types, map_append,
    map_append, take_left' (by simp), drop_left' (by simp),
    Param.withTypes_skeleton, Param.withTypes_skeleton]

theorem Element.allWithTypes_skeleton (es : List Element) :
    Element.allWithTypes es ((es.flatMap Element.types).map TypeExpr.skeleton)
      = es.map Element.skeleton := by
  induction es with
  | nil => rfl
  | cons e es ih =>
    rw [Element.allWithTypes, flatMap_cons, map_append,
      take_left' (length_map _), drop_left' (length_map _), ih]
    cases e with
    | method name sig =>
      exact congrArg (Element.method name · :: es.map Element.skeleton) sig.skeleton_eq.symm
    | embed type => rfl

namespace TypeExpr

theorem skeleton_of_isReference {t : TypeExpr} (h : t.isReference = true) :
    t.skeleton = .name "" := by
  rw [skeleton, transform_eq]
  cases t <;> first | rfl | cases h

/-- Any other type has its own skeleton around those of its children. -/
theorem skeleton_node {t : TypeExpr} (h : t.isReference = false) :
    t.skeleton = t.withChildren (t.children.map skeleton) := by
  rw [skeleton, transform_eq]
  cases t <;> first | rfl | cases h

@[simp] theorem skeleton_name (n : String) : (name n).skeleton = .name "" :=
  skeleton_of_isReference rfl

@[simp] theorem skeleton_qualified (p n : String) : (qualified p n).skeleton = .name "" :=
  skeleton_of_isReference rfl

@[simp] theorem skeleton_generic (base : TypeExpr) (args : List TypeExpr) :
    (generic base args).skeleton = .generic base.skeleton (args.map skeleton) := skeleton_node rfl

@[simp] theorem skeleton_pointer (elem : TypeExpr) :
    (pointer elem).skeleton = .pointer elem.skeleton := skeleton_node rfl

@[simp] theorem skeleton_slice (elem : TypeExpr) :
    (slice elem).skeleton = .slice elem.skeleton := skeleton_node rfl

@[simp] theorem skeleton_array (len : String) (elem : TypeExpr) :
    (array len elem).skeleton = .array len elem.skeleton := skeleton_node rfl

@[simp] theorem skeleton_map (key value : TypeExpr) :
    (map key value).skeleton = .map key.skeleton value.skeleton := skeleton_node rfl

@[simp] theorem skeleton_chan (dir : ChanDir) (elem : TypeExpr) :
    (chan dir elem).skeleton = .chan dir elem.skeleton := skeleton_node rfl

@[simp] theorem skeleton_func (sig : Signature) : (func sig).skeleton = .func sig.skeleton :=
  (skeleton_node rfl).trans (congrArg func sig.skeleton_eq.symm)

@[simp] theorem skeleton_interface (elems : List Element) :
    (interface elems).skeleton = .interface (elems.map Element.skeleton) :=
  (skeleton_node rfl).trans (congrArg interface (Element.allWithTypes_skeleton elems))

@[simp] theorem skeleton_struct (fields : List Field) :
    (struct fields).skeleton = .struct (fields.map Field.skeleton) := by
  rw [skeleton_node rfl, children, withChildren, map_map, zipWith_map_right,
    zipWith_self]
  rfl

@[simp] theorem skeleton_paren (elem : TypeExpr) :
    (paren elem).skeleton = .paren elem.skeleton := skeleton_node rfl

@[simp] theorem skeleton_ellipsis (elem : TypeExpr) :
    (ellipsis elem).skeleton = .ellipsis elem.skeleton := skeleton_node rfl

@[simp] theorem skeleton_union (terms : List Term) :
    (union terms).skeleton = .union (terms.map Term.skeleton) := by
  rw [skeleton_node rfl, children, withChildren, map_map, zipWith_map_right,
    zipWith_self]
  rfl

end TypeExpr

/-! ## Passes over references -/

section Passes

variable {ε σ α β γ : Type}

/-- Running two computations in a row: the second starts from the state that the first leaves, and
a failure of the first is the failure of both. -/
theorem run_bind_exceptState (x : ExceptT ε (StateM σ) α) (f : α → ExceptT ε (StateM σ) β)
    (s : σ) : (x >>= f).run s = match x.run s with
      | (.ok a, s') => (f a).run s'
      | (.error e, s') => (.error e, s') := by
  change StateT.bind x.run (ExceptT.bindCont f) s = _
  unfold StateT.bind
  change (match x.run s with | (a, s') => ExceptT.bindCont f a s') = _
  rcases x.run s with ⟨_ | a, s'⟩ <;> rfl

@[simp] theorem run_pure_exceptState (a : α) (s : σ) :
    (pure a : ExceptT ε (StateM σ) α).run s = (.ok a, s) := rfl

/-- A computation rebuilds a value with the references `old`: it runs as the pass `step` over `old`
runs, with the same state and the same failure, its result has the references that the pass gives,
and the result is `good`. -/
def Rebuilds (step : TypeExpr → ExceptT ε (StateM σ) TypeExpr) (old : List TypeExpr)
    (now : α → List TypeExpr) (good : α → Prop) (x : ExceptT ε (StateM σ) α) : Prop :=
  ∀ s, match x.run s, (old.mapM step).run s with
    | (.ok a, s₁), (.ok refs, s₂) => s₁ = s₂ ∧ now a = refs ∧ good a
    | (.error e, s₁), (.error e', s₂) => e = e' ∧ s₁ = s₂
    | _, _ => False

namespace Rebuilds

variable {step : TypeExpr → ExceptT ε (StateM σ) TypeExpr} {old old₁ old₂ : List TypeExpr}
  {now : α → List TypeExpr} {now₁ : β → List TypeExpr} {now₂ : γ → List TypeExpr} {good : α → Prop}
  {good₁ : β → Prop} {good₂ : γ → Prop} {x : ExceptT ε (StateM σ) β}

/-- A value without references is rebuilt by doing nothing. -/
theorem pure {a : α} (hnow : now a = []) (hgood : good a) :
    Rebuilds step [] now good (Pure.pure a) := by
  intro s
  exact ⟨rfl, hnow, hgood⟩

/-- A value with one part is rebuilt by rebuilding the part. -/
theorem map {f : β → α} (hx : Rebuilds step old now₁ good₁ x)
    (hf : ∀ b, good₁ b → now (f b) = now₁ b ∧ good (f b)) :
    Rebuilds step old now good (do return f (← x)) := by
  intro s
  have h := hx s
  rw [run_bind_exceptState]
  rcases hr : x.run s with ⟨_ | b, s₁⟩ <;> rcases hl : (old.mapM step).run s with ⟨_ | refs, s₂⟩ <;>
    simp only [hr, hl] at h ⊢
  · exact h
  · obtain ⟨rfl, rfl, hgood⟩ := h
    exact ⟨rfl, hf b hgood⟩

/-- A value with two parts is rebuilt by rebuilding one and then the other. -/
theorem map₂ {y : ExceptT ε (StateM σ) γ} {f : β → γ → α}
    (hx : Rebuilds step old₁ now₁ good₁ x) (hy : Rebuilds step old₂ now₂ good₂ y)
    (hf : ∀ b c, good₁ b → good₂ c → now (f b c) = now₁ b ++ now₂ c ∧ good (f b c)) :
    Rebuilds step (old₁ ++ old₂) now good (do return f (← x) (← y)) := by
  intro s
  have h₁ := hx s
  rw [mapM_append, run_bind_exceptState, run_bind_exceptState]
  rcases hr : x.run s with ⟨_ | b, s₁⟩ <;>
    rcases hl : (old₁.mapM step).run s with ⟨_ | refs₁, s₂⟩ <;> simp only [hr, hl] at h₁ ⊢
  · exact h₁
  · obtain ⟨rfl, rfl, hb⟩ := h₁
    have h₂ := hy s₁
    rw [run_bind_exceptState, run_bind_exceptState]
    rcases hr₂ : y.run s₁ with ⟨_ | c, s₂⟩ <;>
      rcases hl₂ : (old₂.mapM step).run s₁ with ⟨_ | refs₂, s₃⟩ <;> simp only [hr₂, hl₂] at h₂ ⊢
    · exact h₂
    · obtain ⟨rfl, rfl, hc⟩ := h₂
      exact ⟨rfl, hf b c hb hc⟩

/-- The two outcomes: both succeed, or both fail with the same failure, and the states agree. -/
theorem run_cases {x : ExceptT ε (StateM σ) α} (h : Rebuilds step old now good x) (s : σ) :
    (∃ a s', x.run s = (.ok a, s') ∧ (old.mapM step).run s = (.ok (now a), s') ∧ good a) ∨
      ∃ e s', x.run s = (.error e, s') ∧ (old.mapM step).run s = (.error e, s') := by
  have hs := h s
  rcases hr : x.run s with ⟨_ | a, s₁⟩ <;> rcases hl : (old.mapM step).run s with ⟨_ | refs, s₂⟩ <;>
    simp only [hr, hl] at hs
  · obtain ⟨rfl, rfl⟩ := hs
    exact .inr ⟨_, _, rfl, rfl⟩
  · obtain ⟨rfl, rfl, hgood⟩ := hs
    exact .inl ⟨a, _, rfl, rfl, hgood⟩

end Rebuilds

/-- What a decision makes of a reference. -/
def Decision.applyTo : Decision → TypeExpr → TypeExpr
  | .replace type, _ => type
  | _, t => t

/-- The step of a pass that makes of each reference what is decided for it. -/
def decideReference (decide : TypeExpr → ExceptT ε (StateM σ) Decision) (t : TypeExpr) :
    ExceptT ε (StateM σ) TypeExpr := do
  return (← decide t).applyTo t

/-- Decisions concern references only: every other node is entered, and a reference stays one. -/
structure OnReferences (decide : TypeExpr → ExceptT ε (StateM σ) Decision) : Prop where
  /-- A node that is no reference is entered, and nothing else happens. -/
  enter : ∀ t, t.isReference = false → decide t = Pure.pure .enter
  reference : ∀ t s d s', t.isReference = true → (decide t).run s = (.ok d, s') →
    (d.applyTo t).isReference = true

section Rebuild

variable {decide : TypeExpr → ExceptT ε (StateM σ) Decision}

theorem OnReferences.rebuilds_reference (h : OnReferences decide) {t : TypeExpr}
    (ht : t.isReference = true) :
    Rebuilds (decideReference decide) t.references references
      (fun t' => t'.skeleton = t.skeleton) (t.transformM decide) := by
  have same : t.transformM decide = decideReference decide t := by
    rw [transformM.eq_def, decideReference]
    congr 1
    funext d
    cases d with
    | enter => cases t <;> first | rfl | cases ht
    | keep => rfl
    | replace type => rfl
  intro s
  rw [same, references_of_isReference ht, mapM_cons, mapM_nil,
    run_bind_exceptState]
  have run : (decideReference decide t).run s
      = Prod.map (Except.map fun d => d.applyTo t) id ((decide t).run s) := by
    rw [decideReference, run_bind_exceptState]
    rcases (decide t).run s with ⟨_ | d, s'⟩ <;> rfl
  rcases hd : (decide t).run s with ⟨_ | d, s'⟩
  · rw [run, hd]; exact ⟨rfl, rfl⟩
  · have href := h.reference t s d s' ht hd
    rw [run, hd]
    exact ⟨rfl, references_of_isReference href,
      (skeleton_of_isReference href).trans (skeleton_of_isReference ht).symm⟩

theorem rebuilds_transformTypesM {ts : List TypeExpr}
    (h : ∀ t ∈ ts, Rebuilds (decideReference decide) t.references references
      (fun t' => t'.skeleton = t.skeleton) (t.transformM decide)) :
    Rebuilds (decideReference decide) (ts.flatMap references)
      (fun ts' => ts'.flatMap references)
      (fun ts' => ts'.map skeleton = ts.map skeleton)
      (transformTypesM decide ts) := by
  induction ts with
  | nil => exact .pure rfl rfl
  | cons t ts ih =>
    rw [transformTypesM, flatMap_cons]
    exact (h t (.head _)).map₂ (ih fun u hu => h u (.tail _ hu))
      fun t' ts' ht hts => ⟨by simp, by simp [ht, hts]⟩

/-- A transformation that decides on references only rebuilds the type reference by reference. -/
theorem TypeExpr.rebuilds_transformM (h : OnReferences decide) (t : TypeExpr) :
    Rebuilds (decideReference decide) t.references references
      (fun t' => t'.skeleton = t.skeleton) (t.transformM decide) := by
  induction t using childrenInduction with
  | step t ih =>
    by_cases href : t.isReference = true
    · exact h.rebuilds_reference href
    · rw [Bool.not_eq_true] at href
      rw [transformM_eq, h.enter t href, pure_bind, references_node href]
      refine (rebuilds_transformTypesM ih).map fun types htypes => ?_
      have hlength : types.length = t.children.length := by simpa using congrArg List.length htypes
      have href' : (t.withChildren types).isReference = false := by
        cases t <;> first | rfl | cases href
      rw [references_node href', skeleton_node href', children_withChildren hlength, htypes,
        withChildren_withChildren hlength (length_map _), ← skeleton_node href]
      exact ⟨rfl, rfl⟩

theorem Signature.rebuilds_transformM (h : OnReferences decide) (s : Signature) :
    Rebuilds (decideReference decide) s.references Signature.references
      (fun s' => s'.skeleton = s.skeleton) (s.transformM decide) := by
  rw [Signature.transformM_eq, Signature.references_eq]
  refine (rebuilds_transformTypesM fun t _ => t.rebuilds_transformM h).map fun types htypes => ?_
  have hlength : types.length = s.types.length := by simpa using congrArg List.length htypes
  rw [Signature.references_eq, Signature.skeleton_eq, Signature.types_withTypes hlength, htypes,
    Signature.withTypes_withTypes hlength, ← Signature.skeleton_eq]
  exact ⟨rfl, rfl⟩

end Rebuild

end Passes

end Stubwright
