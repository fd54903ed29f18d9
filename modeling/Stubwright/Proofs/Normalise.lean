import Stubwright.Proofs.Walk
import Stubwright.Program.Normalise
import Mathlib

/-!
# The normal form of a type by rules

Which type in normal form a type expression means in a scope, stated by rules and apart from how
aliases are followed by the program.

* `normalise_eq`: the computed normal form is the one of the rules.
-/

namespace Stubwright

open List Option

variable {f g : TypeExpr → NormalType}

/-! ## Parts in normal form -/

/-- The normal forms that a group of parameters stands for. -/
def Param.normals (f : TypeExpr → NormalType) (p : Param) : List NormalType :=
  List.replicate p.arity (f p.type)

/-- A signature in normal form. -/
def Signature.normal (f : TypeExpr → NormalType) (sig : Signature) : NormalSignature :=
  ⟨sig.params.flatMap (·.normals f), sig.results.flatMap (·.normals f), sig.isVariadic⟩

/-- An element of an interface in normal form. -/
def Element.normal (f : TypeExpr → NormalType) : Element → NormalElement
  | .method name sig => .method name (sig.normal f)
  | .embed type => .embed (f type)

/-- The fields in normal form that a group of fields stands for. -/
def Field.normals (f : TypeExpr → NormalType) (field : Field) : List NormalField :=
  if field.names.isEmpty then [⟨none, f field.type, field.tag⟩]
  else field.names.map fun name => ⟨some name, f field.type, field.tag⟩

/-- A term in normal form. -/
def Term.normal (f : TypeExpr → NormalType) (t : Term) : NormalTerm :=
  ⟨t.tilde, f t.type⟩

theorem Signature.normal_congr {sig : Signature} (hparams : ∀ q ∈ sig.params, f q.type = g q.type)
    (hresults : ∀ q ∈ sig.results, f q.type = g q.type) : sig.normal f = sig.normal g := by
  have hlist : ∀ ps : List Param, (∀ q ∈ ps, f q.type = g q.type) →
      ps.flatMap (·.normals f) = ps.flatMap (·.normals g) := by
    intro ps hps
    refine flatMap_congr fun q hq => ?_
    rw [Param.normals, Param.normals, hps q hq]
  rw [Signature.normal, Signature.normal, hlist _ hparams, hlist _ hresults]

theorem Element.normal_congr {e : Element} (h : ∀ t ∈ e.types, f t = g t) :
    e.normal f = e.normal g := by
  cases e with
  | method name sig =>
    have hmem : ∀ q ∈ sig.params ++ sig.results, f q.type = g q.type :=
      fun q hq => h _ (mem_map_of_mem hq)
    rw [Element.normal, Element.normal,
      Signature.normal_congr (fun q hq => hmem q (mem_append_left _ hq))
        fun q hq => hmem q (mem_append_right _ hq)]
  | embed type => rw [Element.normal, Element.normal, h type (by simp [Element.types])]

theorem Field.normals_congr {field : Field} (h : f field.type = g field.type) :
    field.normals f = field.normals g := by
  rw [Field.normals, Field.normals, h]

namespace Program

variable {t : TypeExpr} {decl : Declared} {name : String} {scope : Scope} {q : Nat × Declared}
  {k m : Nat} {pkg : Package}

section Computed

variable {p : Program} {follow : Nat → Declared → NormalType} {scope : Scope} {depth : Nat}

theorem normalTypes_eq (ts : List TypeExpr) :
    p.normalTypes follow scope depth ts = ts.map (p.normalType follow scope depth) := by
  induction ts with
  | nil => rfl
  | cons t ts ih => rw [normalTypes, ih, map_cons]

theorem normalParams_eq (ps : List Param) :
    p.normalParams follow scope ps = ps.flatMap (·.normals (p.normalType follow scope 0)) := by
  induction ps with
  | nil => rfl
  | cons q ps ih =>
    obtain ⟨names, type⟩ := q
    rw [normalParams, ih, flatMap_cons, Param.normals, Param.arity]

theorem normalSignature_eq (sig : Signature) :
    p.normalSignature follow scope sig = sig.normal (p.normalType follow scope 0) := by
  obtain ⟨params, results⟩ := sig
  rw [normalSignature, normalParams_eq, normalParams_eq, Signature.normal]

theorem normalElements_eq (es : List Element) :
    p.normalElements follow scope es = es.map (·.normal (p.normalType follow scope 0)) := by
  induction es with
  | nil => rfl
  | cons e es ih =>
    cases e with
    | method name sig =>
      rw [normalElements, ih, map_cons, Element.normal, normalSignature_eq]
    | embed type => rw [normalElements, ih, map_cons, Element.normal]

theorem normalFields_eq (fs : List Field) :
    p.normalFields follow scope fs = fs.flatMap (·.normals (p.normalType follow scope 0)) := by
  induction fs with
  | nil => rfl
  | cons f fs ih =>
    obtain ⟨names, type, tag⟩ := f
    rw [normalFields, ih, flatMap_cons, Field.normals]

theorem normalTerms_eq (ts : List Term) :
    p.normalTerms follow scope depth ts = ts.map (·.normal (p.normalType follow scope depth)) := by
  induction ts with
  | nil => rfl
  | cons t ts ih =>
    obtain ⟨tilde, type⟩ := t
    rw [normalTerms, ih, map_cons, Term.normal]

/-- A reference to a declared type is left to `follow`. -/
theorem normalType_declared (href : t.isReference = true)
    (hdecl : p.resolveType? scope t = some decl) :
    p.normalType follow scope depth t = follow depth decl := by
  cases t with
  | name n =>
    rw [resolveType?] at hdecl
    rw [normalType]
    split at hdecl
    · rename_i heq
      cases hdecl
      rw [heq]
    · cases hdecl
  | qualified q n =>
    rw [resolveType?, resolveQualified?, bind_eq_some_iff] at hdecl
    obtain ⟨pkg, hpkg, hlookup⟩ := hdecl
    obtain ⟨path, hpath, hpkg⟩ := bind_eq_some_iff.1 hpkg
    rw [normalType, hpath]
    simp [hpkg, hlookup]
  | _ => cases href

end Computed

/-! ## The rules -/

/-- Whether a declared type is replaced by what it stands for: an alias without type parameters. -/
def isFollowed (decl : Declared) : Bool :=
  decl.spec.isAlias && decl.spec.typeParams.isEmpty

/-- What a type means in a scope: a type that is written there behind `depth` aliases in a row has
this normal form, and aliases are followed at most `k` deep, one in the type of another.  An alias
is followed only behind so many aliases in a row as `follows` allows. -/
inductive Denotes (p : Program) (follows : Nat → Prop) :
    Nat → Scope → Nat → TypeExpr → NormalType → Prop
  | followed {k scope depth t decl n} (href : t.isReference = true)
      (hdecl : p.resolveType? scope t = some decl) (halias : isFollowed decl = true)
      (hdepth : follows depth) (htype : Denotes p follows k decl.scope (depth + 1) decl.spec.type n) :
      Denotes p follows (k + 1) scope depth t n
  | declared {k scope depth t decl} (href : t.isReference = true)
      (hdecl : p.resolveType? scope t = some decl) (hstop : ¬(isFollowed decl = true ∧ follows depth)) :
      Denotes p follows k scope depth t (.ofDeclared decl)
  | predeclared {k scope depth name} (hname : p.resolveName scope name = .predeclared) :
      Denotes p follows k scope depth (.name name) (.ofPredeclared name)
  | unknown {k scope depth name} (hname : p.resolveName scope name = .unknown) :
      Denotes p follows k scope depth (.name name) (.named none name)
  | undeclared {k scope depth package name path}
      (hpath : p.qualifierPath? scope.file package = some path)
      (hname : p.resolveQualified? scope package name = none) :
      Denotes p follows k scope depth (.qualified package name) (.named (some path) name)
  | unbound {k scope depth package name} (hpath : p.qualifierPath? scope.file package = none) :
      Denotes p follows k scope depth (.qualified package name) (.named (some package) name)
  | generic {k scope depth base args} (f : TypeExpr → NormalType)
      (hbase : Denotes p follows k scope depth base (f base))
      (hargs : ∀ a ∈ args, Denotes p follows k scope depth a (f a)) :
      Denotes p follows k scope depth (.generic base args) (.generic (f base) (args.map f))
  | pointer {k scope depth elem n} (helem : Denotes p follows k scope depth elem n) :
      Denotes p follows k scope depth (.pointer elem) (.pointer n)
  | slice {k scope depth elem n} (helem : Denotes p follows k scope depth elem n) :
      Denotes p follows k scope depth (.slice elem) (.slice n)
  | ellipsis {k scope depth elem n} (helem : Denotes p follows k scope depth elem n) :
      Denotes p follows k scope depth (.ellipsis elem) (.slice n)
  | array {k scope depth len elem n} (helem : Denotes p follows k scope depth elem n) :
      Denotes p follows k scope depth (.array len elem) (.array len n)
  | map {k scope depth key value n m} (hkey : Denotes p follows k scope depth key n)
      (hvalue : Denotes p follows k scope depth value m) :
      Denotes p follows k scope depth (.map key value) (.map n m)
  | chan {k scope depth dir elem n} (helem : Denotes p follows k scope depth elem n) :
      Denotes p follows k scope depth (.chan dir elem) (.chan dir n)
  | paren {k scope depth elem n} (helem : Denotes p follows k scope depth elem n) :
      Denotes p follows k scope depth (.paren elem) n
  | func {k scope depth sig} (f : TypeExpr → NormalType)
      (hparams : ∀ q ∈ sig.params, Denotes p follows k scope 0 q.type (f q.type))
      (hresults : ∀ q ∈ sig.results, Denotes p follows k scope 0 q.type (f q.type)) :
      Denotes p follows k scope depth (.func sig) (.func (sig.normal f))
  | interface {k scope depth elems} (f : TypeExpr → NormalType)
      (helems : ∀ e ∈ elems, ∀ t ∈ e.types, Denotes p follows k scope 0 t (f t)) :
      Denotes p follows k scope depth (.interface elems) (.interface (elems.map (·.normal f)))
  | struct {k scope depth fields} (f : TypeExpr → NormalType)
      (hfields : ∀ field ∈ fields, Denotes p follows k scope 0 field.type (f field.type)) :
      Denotes p follows k scope depth (.struct fields) (.struct (fields.flatMap (·.normals f)))
  | union {k scope depth terms} (f : TypeExpr → NormalType)
      (hterms : ∀ t ∈ terms, Denotes p follows k scope depth t.type (f t.type)) :
      Denotes p follows k scope depth (.union terms) (.union (terms.map (·.normal f)))

variable {p : Program}

namespace Denotes

variable {follows : Nat → Prop} {k m depth : Nat} {scope : Scope} {t : TypeExpr} {n : NormalType}

/-- Where the aliases that a type follows, all of them in `S`, are nested at most `m` deep, those of
the type itself are nested at most one deeper. -/
theorem bounded {S : Nat × Declared → Prop} {I : Scope → Prop}
    (hI : ∀ scope t decl depth, I scope → p.resolveType? scope t = some decl →
      isFollowed decl = true → follows depth → S (depth, decl))
    (hscope : I scope) (h : p.Denotes follows k scope depth t n)
    (hS : ∀ j q n, k = j + 1 → S q → p.Denotes follows j q.2.scope (q.1 + 1) q.2.spec.type n →
      p.Denotes follows m q.2.scope (q.1 + 1) q.2.spec.type n) :
    p.Denotes follows (m + 1) scope depth t n := by
  induction h with
  | followed href hdecl halias hdepth htype =>
    have hmem := hI _ _ _ _ hscope hdecl halias hdepth
    exact .followed href hdecl halias hdepth (hS _ (_, _) _ rfl hmem htype)
  | declared href hdecl hstop => exact .declared href hdecl hstop
  | predeclared hname => exact .predeclared hname
  | unknown hname => exact .unknown hname
  | undeclared hpath hname => exact .undeclared hpath hname
  | unbound hpath => exact .unbound hpath
  | generic f _ _ ihbase ihargs =>
    exact .generic f (ihbase hscope hS) fun a ha => ihargs a ha hscope hS
  | pointer _ ih => exact .pointer (ih hscope hS)
  | slice _ ih => exact .slice (ih hscope hS)
  | ellipsis _ ih => exact .ellipsis (ih hscope hS)
  | array _ ih => exact .array (ih hscope hS)
  | map _ _ ihkey ihvalue => exact .map (ihkey hscope hS) (ihvalue hscope hS)
  | chan _ ih => exact .chan (ih hscope hS)
  | paren _ ih => exact .paren (ih hscope hS)
  | func f _ _ ihparams ihresults =>
    exact .func f (fun q hq => ihparams q hq hscope hS) fun q hq => ihresults q hq hscope hS
  | interface f _ ih => exact .interface f fun e he t ht => ih e he t ht hscope hS
  | struct f _ ih => exact .struct f fun field hfield => ih field hfield hscope hS
  | union f _ ih => exact .union f fun t ht => ih t ht hscope hS

theorem succ (h : p.Denotes follows k scope depth t n) :
    p.Denotes follows (k + 1) scope depth t n := by
  induction k generalizing scope depth t n with
  | zero =>
    exact h.bounded (S := fun _ => True) (I := fun _ => True) (fun _ _ _ _ _ _ _ _ => trivial)
      trivial nofun
  | succ k ih =>
    refine h.bounded (S := fun _ => True) (I := fun _ => True)
      (fun _ _ _ _ _ _ _ _ => trivial) trivial fun j q n hj _ hq => ?_
    cases hj
    exact ih hq

theorem mono (h : p.Denotes follows k scope depth t n) (hle : k ≤ m) :
    p.Denotes follows m scope depth t n := by
  induction hle with
  | refl => exact h
  | step _ ih => exact ih.succ

/-- The computed normal form is the one of the rules. -/
theorem normalType_eq (h : p.Denotes (· < hopLimit) k scope depth t n) :
    p.normalType (p.followDeclared k) scope depth t = n := by
  induction h with
  | followed href hdecl halias hdepth _ ih =>
    rw [normalType_declared href hdecl, followDeclared, if_pos, ih]
    simpa [isFollowed, hdepth] using halias
  | @declared k _ depth _ decl href hdecl hstop =>
    rw [normalType_declared href hdecl]
    cases k with
    | zero => rfl
    | succ k =>
      rw [followDeclared, if_neg]
      simpa [isFollowed] using hstop
  | predeclared hname => rw [normalType, hname]
  | unknown hname => rw [normalType, hname]
  | undeclared hpath hname =>
    rw [resolveQualified?, hpath] at hname
    rw [normalType, hpath]
    simp only [bind_some] at hname
    simp [hname]
  | unbound hpath => rw [normalType, hpath]
  | generic f _ _ ihbase ihargs =>
    rw [normalType, ihbase, normalTypes_eq, map_congr_left ihargs]
  | pointer _ ih => rw [normalType, ih]
  | slice _ ih => rw [normalType, ih]
  | ellipsis _ ih => rw [normalType, ih]
  | array _ ih => rw [normalType, ih]
  | map _ _ ihkey ihvalue => rw [normalType, ihkey, ihvalue]
  | chan _ ih => rw [normalType, ih]
  | paren _ ih => rw [normalType, ih]
  | func f _ _ ihparams ihresults =>
    rw [normalType, normalSignature_eq, Signature.normal_congr ihparams ihresults]
  | interface f _ ih =>
    rw [normalType, normalElements_eq, map_congr_left fun e he => Element.normal_congr (ih e he)]
  | struct f _ ih =>
    rw [normalType, normalFields_eq,
      flatMap_congr fun field hfield => Field.normals_congr (ih field hfield)]
  | union f _ ih =>
    rw [normalType, normalTerms_eq]
    congr 1
    refine map_congr_left fun t ht => ?_
    rw [Term.normal, Term.normal, ih t ht]

theorem unique {n' : NormalType} (h : p.Denotes (· < hopLimit) k scope depth t n)
    (h' : p.Denotes (· < hopLimit) m scope depth t n') : n = n' := by
  rw [← (h.mono (Nat.le_max_left k m)).normalType_eq, ← (h'.mono (Nat.le_max_right k m)).normalType_eq]

end Denotes

/-! ## Enough hops -/

/-- A file of the program in its package. -/
structure IsScope (p : Program) (scope : Scope) : Prop where
  /-- The package belongs to the program. -/
  package : scope.package ∈ p.packages
  file : scope.file ∈ scope.package.files

theorem mem_typeDecls_of_lookup? (hpkg : pkg ∈ p.packages)
    (h : pkg.lookup? name = some decl) : decl ∈ p.typeDecls :=
  mem_flatMap_of_mem hpkg (Package.mem_of_lookup? h)

theorem mem_packages_of_package? {path : String} (h : p.package? path = some pkg) :
    pkg ∈ p.packages :=
  mem_of_find?_eq_some h

/-- A type that is declared in the program is declared in one of its files. -/
theorem isScope_of_mem (h : decl ∈ p.typeDecls) :
    p.IsScope decl.scope ∧ decl.spec ∈ decl.file.source.typeSpecs := by
  obtain ⟨pkg, hpkg, hdecl⟩ := mem_flatMap.1 h
  obtain ⟨file, hfile, hdecl⟩ := mem_flatMap.1 hdecl
  obtain ⟨spec, hspec, rfl⟩ := mem_map.1 hdecl
  exact ⟨⟨hpkg, hfile⟩, hspec⟩

/-- A name of a file of the program is resolved to a type that is declared in the program. -/
theorem mem_of_resolveName (hscope : p.IsScope scope)
    (h : p.resolveName scope name = .declared decl) : decl ∈ p.typeDecls := by
  unfold resolveName at h
  split at h
  · rename_i hlookup
    cases h
    exact mem_typeDecls_of_lookup? hscope.package hlookup
  · split at h
    · rename_i hfind
      cases h
      obtain ⟨path, -, hpath⟩ := exists_of_findSome?_eq_some hfind
      obtain ⟨pkg, hpkg, hlookup⟩ := bind_eq_some_iff.1 hpath
      exact mem_typeDecls_of_lookup? (mem_packages_of_package? hpkg) hlookup
    · split at h <;> cases h

theorem mem_of_resolveQualified? {qualifier : String}
    (h : p.resolveQualified? scope qualifier name = some decl) : decl ∈ p.typeDecls := by
  obtain ⟨pkg, hpkg, hlookup⟩ := bind_eq_some_iff.1 h
  obtain ⟨path, -, hpkg⟩ := bind_eq_some_iff.1 hpkg
  exact mem_typeDecls_of_lookup? (mem_packages_of_package? hpkg) hlookup

theorem mem_of_resolveType? (hscope : p.IsScope scope) (h : p.resolveType? scope t = some decl) :
    decl ∈ p.typeDecls := by
  induction t using TypeExpr.partsInduction with
  | name name =>
    rw [resolveType?] at h
    split at h
    · rename_i hname
      cases h
      exact mem_of_resolveName hscope hname
    · cases h
  | qualified package name => exact mem_of_resolveQualified? h
  | generic base args ihbase _ => exact ihbase h
  | pointer elem ih => exact ih h
  | paren elem ih => exact ih h
  | _ => cases h

def followedAliases (p : Program) : List (Nat × Declared) :=
  (List.range hopLimit).flatMap fun depth =>
    (p.typeDecls.filter (·.spec.isAlias)).map fun decl => (depth, decl)

theorem mem_followedAliases {depth : Nat} (hdepth : depth < hopLimit)
    (halias : isFollowed decl = true) (hdecl : decl ∈ p.typeDecls) :
    (depth, decl) ∈ p.followedAliases := by
  rw [isFollowed, Bool.and_eq_true] at halias
  exact mem_flatMap_of_mem (mem_range.2 hdepth)
    (mem_map_of_mem (mem_filter.2 ⟨hdecl, halias.1⟩))

theorem isScope_of_mem_followedAliases (h : q ∈ p.followedAliases) : p.IsScope q.2.scope := by
  obtain ⟨depth, -, hq⟩ := mem_flatMap.1 h
  obtain ⟨decl, hdecl, rfl⟩ := mem_map.1 hq
  exact (isScope_of_mem (mem_filter.1 hdecl).1).1

theorem length_followedAliases (p : Program) : p.followedAliases.length + 1 ≤ p.hopBudget := by
  have hlen : p.followedAliases.length = hopLimit * p.typeDecls.countP (·.spec.isAlias) := by
    simp [followedAliases, length_flatMap, countP_eq_length_filter]
  rw [hlen, hopBudget, hopLimit]
  omega

/-- Whether the type of an alias has a normal form with aliases nested at most `k` deep. -/
def Ends (p : Program) (k : Nat) (q : Nat × Declared) : Prop :=
  ∃ n, p.Denotes (· < hopLimit) k q.2.scope (q.1 + 1) q.2.spec.type n

theorem Ends.mono (h : p.Ends k q) (hle : k ≤ m) : p.Ends m q := by
  obtain ⟨n, h⟩ := h
  exact ⟨n, h.mono hle⟩

/-- Where all aliases that end at some depth of nesting end at `m`, a type with a normal form has it
at `m + 1`. -/
theorem denotes_succ_of_ends {depth : Nat} {n : NormalType} (hscope : p.IsScope scope)
    (h : p.Denotes (· < hopLimit) (k + 1) scope depth t n)
    (hends : ∀ q ∈ p.followedAliases, p.Ends k q → p.Ends m q) :
    p.Denotes (· < hopLimit) (m + 1) scope depth t n := by
  refine h.bounded (S := (· ∈ p.followedAliases)) (I := p.IsScope) ?_ hscope ?_
  · intro scope t decl depth hscope hdecl halias hdepth
    exact mem_followedAliases hdepth halias (mem_of_resolveType? hscope hdecl)
  · intro j q n hj hq hdenotes
    cases hj
    obtain ⟨n', hdenotes'⟩ := hends q hq ⟨n, hdenotes⟩
    rwa [hdenotes.unique hdenotes']

/-- If some alias needs more than `m` levels, then some alias needs exactly one more. -/
theorem exists_ends_exactly (hq : q ∈ p.followedAliases) (hends : p.Ends k q) (hnot : ¬p.Ends m q) :
    ∃ q' ∈ p.followedAliases, p.Ends (m + 1) q' ∧ ¬p.Ends m q' := by
  induction k generalizing q with
  | zero => exact absurd (hends.mono (Nat.zero_le m)) hnot
  | succ k ih =>
    by_cases hsucc : p.Ends (m + 1) q
    · exact ⟨q, hq, hsucc, hnot⟩
    · -- otherwise an alias within its type needs more than `m` levels too
      by_contra hnone
      refine hsucc ?_
      obtain ⟨n, hdenotes⟩ := hends
      refine ⟨n, denotes_succ_of_ends (isScope_of_mem_followedAliases hq) hdenotes ?_⟩
      intro q' hq' hends'
      by_contra hnot'
      exact hnone (ih hq' hends' hnot')

/-- An alias that ends needs no more levels than there are aliases with their depths. -/
theorem ends_length (hq : q ∈ p.followedAliases) (hends : p.Ends k q) :
    p.Ends p.followedAliases.length q := by
  classical
  by_contra hnot
  have hexact : ∀ j, j ≤ p.followedAliases.length →
      ∃ q' ∈ p.followedAliases, p.Ends (j + 1) q' ∧ ¬p.Ends j q' := by
    intro j hj
    exact exists_ends_exactly hq hends fun h => hnot (h.mono hj)
  choose! chain hmem hsucc hexactly using hexact
  -- aliases that need different numbers of levels differ
  have hinj : Set.InjOn chain (Finset.range (p.followedAliases.length + 1)) := by
    intro i hi j hj heq
    simp only [Finset.coe_range, Set.mem_Iio] at hi hj
    by_contra hne
    rcases Nat.lt_or_gt_of_ne hne with hlt | hlt
    · exact hexactly j (by omega) (heq ▸ (hsucc i (by omega)).mono hlt)
    · exact hexactly i (by omega) (heq ▸ (hsucc j (by omega)).mono hlt)
  have hcard := Finset.card_le_card_of_injOn (t := p.followedAliases.toFinset) chain
    (fun j hj => mem_toFinset.2 (hmem j (by simpa [Nat.lt_succ_iff] using hj))) hinj
  rw [Finset.card_range] at hcard
  have := toFinset_card_le p.followedAliases
  omega

/-- The computed normal form of a type in a file of the program is the one of the rules. -/
theorem normalise_eq {n : NormalType} (hscope : p.IsScope scope)
    (h : p.Denotes (· < hopLimit) k scope 0 t n) : p.normalise scope t = n := by
  have hbound : p.Denotes (· < hopLimit) (p.followedAliases.length + 1) scope 0 t n :=
    denotes_succ_of_ends hscope h.succ fun q hq hends => ends_length hq hends
  exact (hbound.mono (length_followedAliases p)).normalType_eq

end Program

end Stubwright
