import Stubwright.Proofs.NormalReading
import Stubwright.Proofs.Provenance

/-!
# Canonical texts

The text of a type's normal form identifies the type that is meant.

* `canonical_eq_iff`: texts agree just for types that mean the same, up to the order of elements.
* `canonical_ne_aliasChain`, `canonical_eq_dots`, `canonical_eq_applied`: why aliases are followed
  up to the limit only, paths are plain and only names take arguments.
-/

namespace Stubwright

open List

open NormalType

/-! ## Type arguments -/

mutual

/-- Whether type arguments stand only behind names. -/
def NormalType.NamesApplied : NormalType → Prop
  | .named .. => True
  | .generic base args => base.isNamed = true ∧ ∀ t ∈ args, t.NamesApplied
  | .pointer elem => elem.NamesApplied
  | .slice elem => elem.NamesApplied
  | .array _ elem => elem.NamesApplied
  | .map key value => key.NamesApplied ∧ value.NamesApplied
  | .chan _ elem => elem.NamesApplied
  | .func sig => sig.NamesApplied
  | .interface elems => ∀ e ∈ elems, e.NamesApplied
  | .struct fields => ∀ f ∈ fields, f.NamesApplied
  | .union terms => ∀ t ∈ terms, t.NamesApplied
termination_by t => sizeOf t

/-- Whether type arguments in a signature stand only behind names. -/
def NormalSignature.NamesApplied : NormalSignature → Prop
  | ⟨params, results, _⟩ => (∀ t ∈ params, t.NamesApplied) ∧ ∀ t ∈ results, t.NamesApplied
termination_by s => sizeOf s
decreasing_by
  all_goals
    have := sizeOf_lt_of_mem ‹_ ∈ _›
    simp only [NormalSignature.mk.sizeOf_spec]
    omega

/-- Whether type arguments in an element of an interface stand only behind names. -/
def NormalElement.NamesApplied : NormalElement → Prop
  | .method _ sig => sig.NamesApplied
  | .embed type => type.NamesApplied
termination_by e => sizeOf e

/-- Whether type arguments in a field stand only behind names. -/
def NormalField.NamesApplied : NormalField → Prop
  | ⟨_, type, _⟩ => type.NamesApplied
termination_by f => sizeOf f

/-- Whether type arguments in a term stand only behind names. -/
def NormalTerm.NamesApplied : NormalTerm → Prop
  | ⟨_, type⟩ => type.NamesApplied
termination_by t => sizeOf t

end

/-! ## Normal forms of written types are clear -/

theorem isPlainPath_of_isIdentifier {name : String} (h : isIdentifier name = true) :
    isPlainPath name = true := by
  rw [isPlainPath, Bool.and_eq_true]
  refine ⟨all_isPathChar_of_isIdentifier h, ?_⟩
  obtain ⟨c, u, heq, hc, -⟩ := isIdentifier_iff.1 h
  have hpoint : '.' ≠ c := by
    rintro rfl
    exact absurd hc (by decide +kernel)
  rw [heq]
  simp [List.isPrefixOf, hpoint]

/-- A type that may stand anywhere is clear as an element of an interface too. -/
theorem NormalElement.clear_of_clear {n : NormalType} (h : n.Clear) :
    (NormalElement.embed n).Clear := by
  cases n with
  | union terms => simp [NormalType.Clear] at h
  | _ =>
    rw [NormalElement.Clear]
    · exact h
    · simp

theorem NormalType.clear_ofPredeclared {name : String} (h : isIdentifier name = true) :
    (ofPredeclared name).Clear := by
  have hnamed : ∀ n, isIdentifier n = true → (named none n).Clear := by
    intro n hn
    rw [Clear]
    exact ⟨hn, (by simp)⟩
  unfold ofPredeclared
  split
  · exact hnamed _ (by decide +kernel)
  · split
    · exact hnamed _ (by decide +kernel)
    · split
      · rw [Clear]
        simp
      · exact hnamed _ h

namespace Program

/-- Every import path of the program is one: those of its packages, and those that its files
name. -/
def HasPlainPaths (p : Program) : Prop :=
  ∀ pkg ∈ p.packages, isPlainPath pkg.path = true ∧
    ∀ file ∈ pkg.files, ∀ spec ∈ file.source.importSpecs, isPlainPath spec.path = true

/-- A program of one file that imports nothing, with such a path, has such paths. -/
theorem hasPlainPaths_single {path name text : String} {source : SourceFile}
    (hpath : isPlainPath path = true) (himports : source.importSpecs = []) :
    (single path name text source).HasPlainPaths := by
  intro pkg hpkg
  rw [mem_singleton.1 hpkg]
  refine ⟨hpath, fun file hfile spec hspec => ?_⟩
  rw [mem_singleton.1 hfile, himports] at hspec
  cases hspec

section Clear

variable {p : Program} {follow : Nat → Declared → NormalType} {scope : Scope}
  {f : TypeExpr → NormalType} {sig : Signature} {ps : List Param}

def FollowsClearly (p : Program) (follow : Nat → Declared → NormalType) : Prop :=
  ∀ depth decl, decl ∈ p.typeDecls → (follow depth decl).NamesApplied → (follow depth decl).Clear

/-- The normal form of a type that can be written down is clear. -/
def NormalisesClearly (p : Program) (follow : Nat → Declared → NormalType) (scope : Scope)
    (t : TypeExpr) : Prop :=
  ∀ place depth, t.Written place → (p.normalType follow scope depth t).NamesApplied →
    (NormalElement.embed (p.normalType follow scope depth t)).Clear ∧
      (place ≠ .embed → (p.normalType follow scope depth t).Clear)

theorem NormalisesClearly.of_clear {t : TypeExpr}
    (h : ∀ place depth, t.Written place → (p.normalType follow scope depth t).NamesApplied →
      (p.normalType follow scope depth t).Clear) : p.NormalisesClearly follow scope t := by
  intro place depth ht hn
  have hclear := h place depth ht hn
  exact ⟨NormalElement.clear_of_clear hclear, fun _ => hclear⟩

theorem clear_normals {P : NormalType → Prop}
    (h : ∀ q ∈ ps, P (f q.type)) : ∀ n ∈ ps.flatMap (·.normals f), P n := by
  intro n hn
  obtain ⟨q, hq, hn⟩ := mem_flatMap.1 hn
  rw [eq_of_mem_replicate hn]
  exact h q hq

theorem mem_normals {q : Param} (hq : q ∈ ps) :
    f q.type ∈ ps.flatMap (·.normals f) := by
  refine mem_flatMap_of_mem hq (mem_replicate.2 ⟨?_, rfl⟩)
  rw [Param.arity]
  omega

theorem exists_slice_of_isVariadic (h : sig.isVariadic = true) :
    ∃ before elem, sig.params.flatMap (·.normals (p.normalType follow scope 0))
      = before ++ [.slice elem] := by
  rw [Signature.isVariadic, Option.any_eq_true] at h
  obtain ⟨last, hlast, hellipsis⟩ := h
  obtain ⟨before, hparams⟩ := getLast?_eq_some_iff.1 hlast
  obtain ⟨names, type⟩ := last
  cases type with
  | ellipsis elem =>
    obtain ⟨k, hk⟩ : ∃ k, (Param.mk names (.ellipsis elem)).arity = k + 1 :=
      ⟨max names.length 1 - 1, by simp only [Param.arity]; omega⟩
    refine ⟨before.flatMap (·.normals (p.normalType follow scope 0))
      ++ List.replicate k (.slice (p.normalType follow scope 0 elem)),
      p.normalType follow scope 0 elem, ?_⟩
    rw [hparams, flatMap_append, flatMap_cons, flatMap_nil, append_nil,
      Param.normals, hk, replicate_succ', normalType, append_assoc]
  | _ => cases hellipsis

theorem clear_normalSignature (hsig : sig.Formed identified)
    (hparts : sig.Each (p.NormalisesClearly follow scope))
    (hn : (p.normalSignature follow scope sig).NamesApplied) :
    (p.normalSignature follow scope sig).Clear := by
  rw [normalSignature_eq] at hn ⊢
  obtain ⟨params, results⟩ := sig
  rw [Signature.Formed] at hsig
  obtain ⟨hparams, hresults, -, -⟩ := hsig
  simp only [Signature.normal, NormalSignature.NamesApplied] at hn
  have hpart : ∀ ps : List Param, (∀ q ∈ ps, q.Formed identified) →
      (∀ q ∈ ps, p.NormalisesClearly follow scope q.type) →
      (∀ n ∈ ps.flatMap (·.normals (p.normalType follow scope 0)), n.NamesApplied) →
      ∀ n ∈ ps.flatMap (·.normals (p.normalType follow scope 0)), n.Clear := by
    intro ps hps hclear happlied
    refine clear_normals fun q hq => ?_
    have hformed := hps q hq
    have hnames := happlied _ (mem_normals hq)
    obtain ⟨names, type⟩ := q
    rw [Param.Formed] at hformed
    exact (hclear _ hq .param 0 hformed.2 hnames).2 (by simp)
  rw [NormalSignature.clear_iff]
  exact ⟨hpart params hparams hparts.1 hn.1, hpart results hresults hparts.2 hn.2,
    fun hvariadic => exists_slice_of_isVariadic hvariadic⟩

/-- The normal form of a reference is clear. -/
theorem clear_name (hfollow : p.FollowsClearly follow) (hscope : p.IsScope scope) (name : String) :
    p.NormalisesClearly follow scope (.name name) := by
  refine .of_clear fun place depth ht hn => ?_
  rw [TypeExpr.Written, TypeExpr.Formed] at ht
  rw [normalType] at hn ⊢
  split
  · rename_i decl hname
    rw [hname] at hn
    exact hfollow depth decl (mem_of_resolveName hscope hname) hn
  · exact clear_ofPredeclared ht
  · rw [Clear]
    exact ⟨ht, (by simp)⟩

theorem clear_qualified (hpaths : p.HasPlainPaths) (hfollow : p.FollowsClearly follow)
    (hscope : p.IsScope scope) (package name : String) :
    p.NormalisesClearly follow scope (.qualified package name) := by
  refine .of_clear fun place depth ht hn => ?_
  rw [TypeExpr.Written, TypeExpr.Formed] at ht
  obtain ⟨hpackage, hname⟩ : isIdentifier package = true ∧ isIdentifier name = true := by
    simpa [identified, TypeExpr.hasIdentifiers] using ht
  have hnamed : ∀ path, isPlainPath path = true → (named (some path) name).Clear := by
    intro path hpath
    rw [Clear]
    exact ⟨hname, fun _ h => Option.some.inj h ▸ hpath⟩
  rw [normalType] at hn ⊢
  split
  · rename_i path hpath
    rw [hpath] at hn
    obtain ⟨spec, hspec, rfl⟩ := Option.map_eq_some_iff.1 hpath
    dsimp only at hn
    split
    · rename_i decl hdecl
      rw [hdecl] at hn
      obtain ⟨pkg, hpkg, hlookup⟩ := Option.bind_eq_some_iff.1 hdecl
      exact hfollow depth decl (mem_typeDecls_of_lookup? (mem_packages_of_package? hpkg) hlookup) hn
    · exact hnamed _ ((hpaths _ hscope.package).2 _ hscope.file spec (mem_of_find?_eq_some hspec))
  · exact hnamed _ (isPlainPath_of_isIdentifier hpackage)

theorem clear_element {e : Element} (he : e.Formed identified)
    (hparts : e.Each (p.NormalisesClearly follow scope))
    (hn : (e.normal (p.normalType follow scope 0)).NamesApplied) :
    (e.normal (p.normalType follow scope 0)).Clear := by
  cases e with
  | method name sig =>
    rw [Element.Formed] at he
    rw [Element.normal, ← normalSignature_eq] at hn ⊢
    rw [NormalElement.NamesApplied] at hn
    rw [NormalElement.Clear]
    exact ⟨he.1, clear_normalSignature he.2 hparts hn⟩
  | embed type =>
    rw [Element.Formed] at he
    rw [Element.normal, NormalElement.NamesApplied] at hn
    exact (hparts .embed 0 he hn).1

theorem clear_field {field : Field} (hfield : field.Formed identified)
    (hpart : p.NormalisesClearly follow scope field.type)
    (hn : ∀ m ∈ field.normals (p.normalType follow scope 0), m.NamesApplied) :
    ∀ m ∈ field.normals (p.normalType follow scope 0), m.Clear := by
  obtain ⟨names, type, tag⟩ := field
  rw [Field.Formed] at hfield
  obtain ⟨hnames, -, htype, htag⟩ := hfield
  -- every member has the type of the group and its tag
  have hmember : ∀ m ∈ Field.normals (p.normalType follow scope 0) ⟨names, type, tag⟩,
      m.type = p.normalType follow scope 0 type ∧ m.tag = tag ∧ ∀ n ∈ m.name, n ∈ names := by
    intro m hm
    unfold Field.normals at hm
    split at hm
    · rw [mem_singleton.1 hm]
      exact ⟨rfl, rfl, (by simp)⟩
    · obtain ⟨name, hname, rfl⟩ := mem_map.1 hm
      exact ⟨rfl, rfl, fun n h => Option.some.inj h ▸ hname⟩
  intro m hm
  obtain ⟨hmtype, hmtag, hmname⟩ := hmember m hm
  have happlied := hn m hm
  obtain ⟨mname, mtype, mtag⟩ := m
  rw [NormalField.NamesApplied] at happlied
  rw [NormalField.clear_iff]
  dsimp only at hmtype hmtag hmname ⊢
  subst hmtype hmtag
  exact ⟨fun n h => hnames n (hmname n h), (hpart .plain 0 htype happlied).2 (by simp), htag⟩

theorem normalisesClearly (hpaths : p.HasPlainPaths) (hfollow : p.FollowsClearly follow)
    (hscope : p.IsScope scope) (t : TypeExpr) : p.NormalisesClearly follow scope t := by
  induction t using TypeExpr.partsInduction with
  | name name => exact clear_name hfollow hscope name
  | qualified package name => exact clear_qualified hpaths hfollow hscope package name
  | generic base args ihbase ihargs =>
    refine .of_clear fun place depth ht hn => ?_
    rw [TypeExpr.Written, TypeExpr.Formed] at ht
    rw [normalType, NamesApplied, normalTypes_eq, forall_mem_map] at hn
    rw [normalType, Clear, normalTypes_eq, forall_mem_map]
    obtain ⟨-, hbase, hne, hargs⟩ := ht
    have hbaseApplied : (p.normalType follow scope depth base).NamesApplied := by
      cases hb : p.normalType follow scope depth base with
      | named package name => rw [NamesApplied]; trivial
      | _ => rw [hb] at hn; cases hn.1
    exact ⟨hn.1, (ihbase .plain depth hbase hbaseApplied).2 (by simp), by simpa using hne,
      fun a ha => (ihargs a ha .plain depth (hargs a ha) (hn.2 a ha)).2 (by simp)⟩
  | pointer elem ih | slice elem ih | chan dir elem ih =>
    refine .of_clear fun place depth ht hn => ?_
    rw [TypeExpr.Written, TypeExpr.Formed] at ht
    rw [normalType, NamesApplied] at hn
    rw [normalType, Clear]
    exact (ih .plain depth ht hn).2 (by simp)
  | array len elem ih =>
    refine .of_clear fun place depth ht hn => ?_
    rw [TypeExpr.Written, TypeExpr.Formed] at ht
    rw [normalType, NamesApplied] at hn
    rw [normalType, Clear]
    exact ⟨ht.1, (ih .plain depth ht.2 hn).2 (by simp)⟩
  | map key value ihkey ihvalue =>
    refine .of_clear fun place depth ht hn => ?_
    rw [TypeExpr.Written, TypeExpr.Formed] at ht
    rw [normalType, NamesApplied] at hn
    rw [normalType, Clear]
    exact ⟨(ihkey .plain depth ht.1 hn.1).2 (by simp), (ihvalue .plain depth ht.2 hn.2).2 (by simp)⟩
  | func sig ih =>
    refine .of_clear fun place depth ht hn => ?_
    rw [TypeExpr.Written, TypeExpr.Formed] at ht
    rw [normalType, NamesApplied] at hn
    rw [normalType, Clear]
    exact clear_normalSignature ht ih hn
  | interface elems ih =>
    refine .of_clear fun place depth ht hn => ?_
    rw [TypeExpr.Written, TypeExpr.Formed] at ht
    rw [normalType, NamesApplied, normalElements_eq, forall_mem_map] at hn
    rw [normalType, Clear, normalElements_eq, forall_mem_map]
    exact fun e he => clear_element (ht e he) (ih e he) (hn e he)
  | struct fields ih =>
    refine .of_clear fun place depth ht hn => ?_
    rw [TypeExpr.Written, TypeExpr.Formed] at ht
    rw [normalType, NamesApplied, normalFields_eq] at hn
    rw [normalType, Clear, normalFields_eq]
    intro m hm
    obtain ⟨field, hfield, hm⟩ := mem_flatMap.1 hm
    exact clear_field (ht field hfield) (ih field hfield)
      (fun m hm => hn m (mem_flatMap_of_mem hfield hm)) m hm
  | paren elem ih =>
    refine .of_clear fun place depth ht hn => ?_
    rw [TypeExpr.Written, TypeExpr.Formed] at ht
    rw [normalType] at hn ⊢
    exact (ih .plain depth ht hn).2 (by simp)
  | ellipsis elem ih =>
    refine .of_clear fun place depth ht hn => ?_
    rw [TypeExpr.Written, TypeExpr.Formed] at ht
    rw [normalType, NamesApplied] at hn
    rw [normalType, Clear]
    exact (ih .plain depth ht.2 hn).2 (by simp)
  | union terms ih =>
    intro place depth ht hn
    rw [TypeExpr.Written, TypeExpr.Formed] at ht
    obtain ⟨rfl, hne, hlone, hterms⟩ := ht
    rw [normalType, NamesApplied, normalTerms_eq, forall_mem_map] at hn
    rw [normalType, normalTerms_eq]
    refine ⟨?_, fun h => absurd rfl h⟩
    rw [NormalElement.Clear, forall_mem_map]
    refine ⟨by simpa using hne, ?_, ?_⟩
    · -- a lone term keeps its tilde
      intro type heq
      obtain ⟨⟨tilde, t⟩, rest, rfl, hterm, hrest⟩ := map_eq_cons_iff.1 heq
      obtain rfl := map_eq_nil_iff.1 hrest
      cases hterm
      exact hlone t rfl
    · intro term hterm
      have hformed := hterms term hterm
      have happlied := hn term hterm
      obtain ⟨tilde, t⟩ := term
      rw [Term.Formed] at hformed
      rw [Term.normal, NormalTerm.NamesApplied] at happlied
      rw [Term.normal, NormalTerm.Clear]
      exact (ih _ hterm .plain depth hformed happlied).2 (by simp)

theorem followsClearly (hread : p.IsRead) (hpaths : p.HasPlainPaths) (hops : Nat) :
    p.FollowsClearly (p.followDeclared hops) := by
  have hdeclared : ∀ decl ∈ p.typeDecls, (ofDeclared decl).Clear := by
    intro decl hdecl
    rw [ofDeclared, Clear]
    refine ⟨(spec_written hread hdecl).name, fun path hpath => ?_⟩
    rw [← Option.some.inj hpath]
    exact (hpaths _ (isScope_of_mem hdecl).1.package).1
  induction hops with
  | zero => exact fun _ decl hdecl _ => hdeclared decl hdecl
  | succ hops ih =>
    intro depth decl hdecl hn
    rw [followDeclared] at hn ⊢
    split
    · rename_i hfollow
      rw [if_pos hfollow] at hn
      exact (normalisesClearly hpaths ih (isScope_of_mem hdecl).1 decl.spec.type .plain (depth + 1)
        (spec_written hread hdecl).type hn).2 (by simp)
    · exact hdeclared decl hdecl

end Clear

variable {p : Program} {name : String} {scope : Scope} {set : MethodSet}

/-- The normal form of a written type in a file of the program is clear. -/
theorem clear_normalise (hread : p.IsRead) (hpaths : p.HasPlainPaths)
    {t : TypeExpr} (hscope : p.IsScope scope) (ht : t.Written .plain)
    (hn : (p.normalise scope t).NamesApplied) : (p.normalise scope t).Clear :=
  (normalisesClearly hpaths (followsClearly hread hpaths p.hopBudget) hscope t .plain 0 ht hn).2 nofun

/-- The signature of a method in normal form. -/
def normalMethod (p : Program) (scope : Scope) (sig : Signature) : NormalSignature :=
  p.normalSignature (p.followDeclared p.hopBudget) scope sig

theorem clear_normalMethod (hread : p.IsRead) (hpaths : p.HasPlainPaths)
    {sig : Signature} (hsig : p.Wrote scope sig) (hn : (p.normalMethod scope sig).NamesApplied) :
    (p.normalMethod scope sig).Clear := by
  have hclearly := normalisesClearly hpaths (followsClearly hread hpaths p.hopBudget) hsig.1
  exact clear_normalSignature hsig.2 ⟨fun q _ => hclearly q.type, fun q _ => hclearly q.type⟩ hn

theorem display_methodShape_eq_iff (hread : p.IsRead) (hpaths : p.HasPlainPaths)
    {scope' : Scope} {sig sig' : Signature} (hsig : p.Wrote scope sig)
    (hsig' : p.Wrote scope' sig') (hn : (p.normalMethod scope sig).NamesApplied)
    (hn' : (p.normalMethod scope' sig').NamesApplied) :
    (p.methodShape scope sig).display = (p.methodShape scope' sig').display ↔
      p.methodShape scope sig = p.methodShape scope' sig' :=
  NormalSignature.display_eq_iff (clear_normalMethod hread hpaths hsig hn)
    (clear_normalMethod hread hpaths hsig' hn')

/-! ## Reported mismatches -/

/-- A mismatch is reported for a method of the interface and the method of that name, of different
shapes. -/
theorem missingAmong_mismatch {methods : List (MethodGroup × Method)}
    {want has : String}
    (h : p.missingAmong set methods = .error (.signatureMismatch name want has)) :
    ∃ group method entry, (group, method) ∈ methods ∧ set.get? method.name = some entry ∧
      p.methodShape group.scope method.sig ≠ p.methodShape entry.scope entry.sig ∧
      want = (p.methodShape group.scope method.sig).display ∧
      has = (p.methodShape entry.scope entry.sig).display := by
  induction methods with
  | nil => cases h
  | cons m methods ih =>
    obtain ⟨group, method⟩ := m
    rw [missingAmong] at h
    split at h
    · rename_i e he
      cases h
      unfold missingMethod at he
      split at he
      · cases he
      · rename_i entry hentry
        dsimp only at he
        split at he
        · cases he
        · rename_i hne
          cases he
          exact ⟨group, method, entry, mem_cons_self, hentry, hne, rfl, rfl⟩
    · split at h
      · rename_i e he
        cases h
        obtain ⟨group', method', entry, hmem, hrest⟩ := ih he
        exact ⟨group', method', entry, mem_cons_of_mem _ hmem, hrest⟩
      · cases h

theorem mem_of_lookup {α : Type} {a : α} {entries : List (String × α)}
    (h : entries.lookup name = some a) : (name, a) ∈ entries := by
  induction entries with
  | nil => cases h
  | cons e entries ih =>
    obtain ⟨n, b⟩ := e
    rw [lookup_cons] at h
    split at h
    · rename_i heq
      cases h
      rw [eq_of_beq heq]
      exact mem_cons_self
    · exact mem_cons_of_mem _ (ih h)

/-- A reported mismatch shows two different signatures. -/
theorem want_ne_has (hread : p.IsRead) (hpaths : p.HasPlainPaths) {groups : List MethodGroup}
    {want has : String} (hgroups : p.GroupsWritten groups)
    (hset : p.MethodsWritten set.entries)
    (hwant : ∀ group ∈ groups, ∀ m ∈ group.methods,
      (p.normalMethod group.scope m.sig).NamesApplied)
    (hhas : ∀ m ∈ set.entries, (p.normalMethod m.2.scope m.2.sig).NamesApplied)
    (h : p.missingMethods groups set = .error (.signatureMismatch name want has)) :
    want ≠ has := by
  obtain ⟨group, method, entry, hmem, hentry, hne, rfl, rfl⟩ := missingAmong_mismatch h
  obtain ⟨group', hgroup, hmem⟩ := mem_flatMap.1 hmem
  obtain ⟨method', hmethod, heq⟩ := mem_map.1 hmem
  cases heq
  have hmem' := mem_of_lookup hentry
  intro hdisplay
  exact hne ((display_methodShape_eq_iff hread hpaths (hgroups group hgroup method hmethod)
    (hset _ hmem') (hwant group hgroup method hmethod) (hhas _ hmem')).1 hdisplay)

/-! ## Texts identify types -/

/-- What a type means that is written in a file of the program. -/
def Means (p : Program) (scope : Scope) (t : TypeExpr) (n : NormalType) : Prop :=
  ∃ k, p.Denotes (· < hopLimit) k scope 0 t n

/-- **Canonical texts identify types.**  In a loaded program whose import paths are such, take types
that can be written down and what they mean in files of the program, with type arguments only behind
names.  Two of them have the same canonical text if and only if they mean the same, up to the order
of the elements of interfaces.  Two signatures have the same shape if and only if they are displayed
alike, and a mismatch that is reported shows two different signatures. -/
theorem canonical_eq_iff {source : PackageSource} {roots : List String}
    (hload : load source roots = .ok p) (hpaths : p.HasPlainPaths) :
    (∀ scope scope' t t' n n', p.IsScope scope → p.IsScope scope' →
      t.Written .plain → t'.Written .plain → p.Means scope t n → p.Means scope' t' n' →
      n.NamesApplied → n'.NamesApplied →
        (p.canonical scope t = p.canonical scope' t' ↔ n.Same n')) ∧
    (∀ scope scope' sig sig', p.Wrote scope sig → p.Wrote scope' sig' →
      (p.normalMethod scope sig).NamesApplied → (p.normalMethod scope' sig').NamesApplied →
        (p.methodShape scope sig = p.methodShape scope' sig' ↔
          (p.methodShape scope sig).display = (p.methodShape scope' sig').display)) ∧
    ∀ interface ∈ p.typeDecls, ∀ concrete ∈ p.typeDecls, ∀ expansion set name want has,
      p.expand interface [] = .ok expansion → p.methodSet concrete = .ok set →
      (∀ group ∈ expansion.groups, ∀ m ∈ group.methods,
        (p.normalMethod group.scope m.sig).NamesApplied) →
      (∀ m ∈ set.entries, (p.normalMethod m.2.scope m.2.sig).NamesApplied) →
      p.missingMethods expansion.groups set = .error (.signatureMismatch name want has) →
        want ≠ has := by
  have hread := isRead_of_load hload
  refine ⟨?_, ?_, ?_⟩
  · rintro scope scope' t t' n n' hscope hscope' ht ht' ⟨k, hn⟩ ⟨k', hn'⟩ happlied happlied'
    have heq := normalise_eq hscope hn
    have heq' := normalise_eq hscope' hn'
    have hclear := clear_normalise hread hpaths hscope ht (heq.symm ▸ happlied)
    have hclear' := clear_normalise hread hpaths hscope' ht' (heq'.symm ▸ happlied')
    rw [canonical, canonical, text_eq_iff hclear hclear', heq, heq']
  · intro scope scope' sig sig' hsig hsig' hn hn'
    exact (display_methodShape_eq_iff hread hpaths hsig hsig' hn hn').symm
  · intro interface hinterface concrete hconcrete expansion set name want has hexpand hset hwant hhas
      hmismatch
    exact want_ne_has hread hpaths (wrote_of_expand hread hinterface hexpand)
      (wrote_of_methodSet hread hconcrete hset) hwant hhas hmismatch

/-! ### A file with aliases -/

/-- A file with aliases, an interface and a type whose method has another signature. -/
def aliasFile : SourceFile where
  package := "a"
  packageSpan := ⟨0, 9⟩
  imports := []
  decls := [.types ⟨10, 69⟩
      [⟨"A", ⟨15, 30⟩, [], true, .map (.name "string") (.pointer (.name "B"))⟩,
        ⟨"B", ⟨31, 39⟩, [], true, .slice (.name "byte")⟩,
        ⟨"I", ⟨40, 57⟩, [], false, .interface [.method "M" ⟨[.unnamed (.name "A")], []⟩]⟩,
        ⟨"T", ⟨58, 68⟩, [], false, .struct []⟩],
    .func
      { recv := some ⟨none, false, "T", []⟩, name := "M", typeParams := [],
        sig := ⟨[.unnamed (.name "B")], []⟩, body := some ⟨81, 83⟩, span := ⟨70, 83⟩ }]

/-- The text of this file. -/
def aliasText : String :=
  "package a;type(A=map[string]*B;B=[]byte;I interface\x7bM(A)\x7d;T struct\x7b\x7d);" ++
    "func(T)M(B)\x7b\x7d"

/-- The program of this file. -/
def aliasProgram : Program :=
  single "m/a" "a.go" aliasText aliasFile

/-- Where the names of this file are looked up. -/
def aliasScope : Scope :=
  ⟨⟨"m/a", "a", [⟨"m/a/a.go", aliasText, aliasFile⟩]⟩, ⟨"m/a/a.go", aliasText, aliasFile⟩⟩

/-- A type that is declared in this file. -/
def aliasDecl (index : Nat) : Declared :=
  ⟨aliasScope.package, aliasScope.file, aliasFile.typeSpecs.getD index default⟩

/-- What `B` means there, given what is in front of it. -/
theorem aliasProgram_denotes {k : Nat} {depth : Nat} (hdepth : depth < hopLimit) :
    aliasProgram.Denotes (· < hopLimit) (k + 1) aliasScope depth (.name "B")
      (.slice (.named none "uint8")) := by
  have hB : aliasProgram.resolveType? aliasScope (.name "B") = some (aliasDecl 1) := by
    decide +kernel
  have hbyte : aliasProgram.resolveName aliasScope "byte" = .predeclared := by decide +kernel
  exact .followed rfl hB rfl hdepth (.slice (.predeclared hbyte))

/-- The map that `A` stands for can be written out, its element in parentheses and by another name,
and the mismatch between the two methods is reported with their two signatures. -/
theorem canonical_eq_iff_aliases :
    (aliasProgram.canonical aliasScope (.name "A") = aliasProgram.canonical aliasScope
        (.map (.name "string") (.pointer (.paren (.slice (.name "uint8"))))) ∧
      aliasProgram.canonical aliasScope (.name "A") ≠ aliasProgram.canonical aliasScope
        (.name "B")) ∧
    ((aliasProgram.methodShape aliasScope ⟨[.unnamed (.name "A")], []⟩).display
      ≠ (aliasProgram.methodShape aliasScope ⟨[.unnamed (.name "B")], []⟩).display) ∧
    ∃ expansion set want has, aliasProgram.expand (aliasDecl 2) [] = .ok expansion ∧
      aliasProgram.methodSet (aliasDecl 3) = .ok set ∧
      aliasProgram.missingMethods expansion.groups set
        = .error (.signatureMismatch "M" want has) ∧ want ≠ has := by
  have hparse : SourceFile.parse aliasText = .ok aliasFile := by decide +kernel
  have hload := load_single "m/a" "a.go" hparse rfl (by decide)
  have hpaths : aliasProgram.HasPlainPaths := hasPlainPaths_single (by decide) rfl
  obtain ⟨htypes, hshapes, hmismatch⟩ := canonical_eq_iff hload hpaths
  have hscope : aliasProgram.IsScope aliasScope := ⟨mem_singleton_self _, mem_singleton_self _⟩
  have hstring : aliasProgram.resolveName aliasScope "string" = .predeclared := by decide +kernel
  have huint8 : aliasProgram.resolveName aliasScope "uint8" = .predeclared := by decide +kernel
  have hA : aliasProgram.resolveType? aliasScope (.name "A") = some (aliasDecl 0) := by
    decide +kernel
  -- what the three types mean
  have hmeansA : aliasProgram.Means aliasScope (.name "A")
      (.map (.named none "string") (.pointer (.slice (.named none "uint8")))) :=
    ⟨2, .followed rfl hA rfl (by decide)
      (.map (.predeclared hstring) (.pointer (aliasProgram_denotes (by decide))))⟩
  have hmeansB : aliasProgram.Means aliasScope (.name "B") (.slice (.named none "uint8")) :=
    ⟨1, aliasProgram_denotes (by decide)⟩
  have hmeansMap : aliasProgram.Means aliasScope
      (.map (.name "string") (.pointer (.paren (.slice (.name "uint8")))))
      (.map (.named none "string") (.pointer (.slice (.named none "uint8")))) :=
    ⟨0, .map (.predeclared hstring) (.pointer (.paren (.slice (.predeclared huint8))))⟩
  have hreadA : TypeExpr.parse "A" = .ok (.name "A") := by decide +kernel
  have hreadB : TypeExpr.parse "B" = .ok (.name "B") := by decide +kernel
  have hreadMap : TypeExpr.parse "map[string]*([]uint8)"
      = .ok (.map (.name "string") (.pointer (.paren (.slice (.name "uint8"))))) := by
    decide +kernel
  -- the signatures of the two methods
  have hsig : ∀ t n, aliasProgram.Means aliasScope t n → n.NamesApplied →
      (aliasProgram.normalMethod aliasScope ⟨[.unnamed t], []⟩).NamesApplied := by
    rintro t n ⟨k, hn⟩ happlied
    rw [normalMethod, normalSignature_eq]
    simp only [Signature.normal, NormalSignature.NamesApplied]
    refine ⟨clear_normals fun q hq => ?_, (by simp)⟩
    rw [← normalise_eq hscope hn] at happlied
    rw [mem_singleton.1 hq]
    exact happlied
  have hwrote : ∀ t, t.Written .plain → aliasProgram.Wrote aliasScope ⟨[.unnamed t], []⟩ := by
    intro t ht
    refine ⟨hscope, ?_⟩
    rw [Signature.Formed]
    refine ⟨fun q hq => ?_, (by simp), .inl fun q hq => ?_, .inl (by simp)⟩
    · rw [mem_singleton.1 hq, Param.unnamed, Param.Formed]
      exact ⟨(by simp), ht.at_place .param⟩
    · rw [mem_singleton.1 hq]
      rfl
  have happliedA := hsig _ _ hmeansA (by simp [NamesApplied])
  have happliedB := hsig _ _ hmeansB (by simp [NamesApplied])
  refine ⟨⟨?_, ?_⟩, ?_, ?_⟩
  · refine (htypes _ _ _ _ _ _ hscope hscope (TypeExpr.written_of_parse hreadA)
      (TypeExpr.written_of_parse hreadMap) hmeansA hmeansMap ?_ ?_).2 ?_
    · simp [NamesApplied]
    · simp [NamesApplied]
    · simp [Same]
  · intro heq
    have hsame := (htypes _ _ _ _ _ _ hscope hscope (TypeExpr.written_of_parse hreadA)
      (TypeExpr.written_of_parse hreadB) hmeansA hmeansB (by simp [NamesApplied])
      (by simp [NamesApplied])).1 heq
    simp [Same] at hsame
  · intro heq
    have hshape := (hshapes _ _ _ _ (hwrote _ (TypeExpr.written_of_parse hreadA))
      (hwrote _ (TypeExpr.written_of_parse hreadB)) happliedA happliedB).2 heq
    revert hshape
    decide +kernel
  · have hexpand : aliasProgram.expand (aliasDecl 2) []
        = .ok ⟨[⟨"m/a.I", aliasScope, [⟨"M", ⟨[.unnamed (.name "A")], []⟩⟩]⟩], ["M"]⟩ := by
      decide +kernel
    have hset : aliasProgram.methodSet (aliasDecl 3)
        = .ok ⟨[("M", ⟨aliasScope, ⟨[.unnamed (.name "B")], []⟩, 0⟩)]⟩ := by
      decide +kernel
    have hmissing : aliasProgram.missingMethods
        [⟨"m/a.I", aliasScope, [⟨"M", ⟨[.unnamed (.name "A")], []⟩⟩]⟩]
        ⟨[("M", ⟨aliasScope, ⟨[.unnamed (.name "B")], []⟩, 0⟩)]⟩
        = .error (.signatureMismatch "M" "(map[string]*[]uint8)" "([]uint8)") := by
      decide +kernel
    refine ⟨_, _, _, _, hexpand, hset, hmissing, hmismatch (aliasDecl 2) (by decide +kernel)
      (aliasDecl 3) (by decide +kernel) _ _ "M" _ _ hexpand hset ?_ ?_ hmissing⟩
    · intro group hgroup m hm
      cases mem_singleton.1 hgroup
      cases mem_singleton.1 hm
      exact happliedA
    · intro m hm
      cases mem_singleton.1 hm
      exact happliedB

/-! ### A long chain of aliases -/

/-- The names of a chain of aliases, each declared as the next. -/
def chainNames : List String :=
  "ABCDEFGHIJKLMNOPQRSTUVWXYZabcdefg".toList.map fun c => String.ofList [c]

/-- The names with what they are declared as. -/
def chainLinks : List (String × String) :=
  chainNames.zip (chainNames.drop 1 ++ ["int"])

/-- A file that declares a chain of aliases. -/
def chainText : String :=
  "package a;type(" ++ String.intercalate ";" (chainLinks.map fun l => l.1 ++ "=" ++ l.2) ++ ")"

/-- What is declared in this file. -/
def chainFile : SourceFile where
  package := "a"
  packageSpan := ⟨0, 9⟩
  imports := []
  decls := [.types ⟨10, 149⟩ (chainLinks.mapIdx fun i l =>
    ⟨l.1, ⟨15 + 4 * i, 17 + 4 * i + l.2.length⟩, [], true, .name l.2⟩)]

/-- The program of this file. -/
def chainProgram : Program :=
  single "m/a" "a.go" chainText chainFile

/-- Where the names of this file are looked up. -/
def chainScope : Scope :=
  ⟨⟨"m/a", "a", [⟨"m/a/a.go", chainText, chainFile⟩]⟩, ⟨"m/a/a.go", chainText, chainFile⟩⟩

/-- A declared type of this file is looked up in it. -/
theorem scope_of_lookup?_chain {decl : Declared}
    (h : chainScope.package.lookup? name = some decl) : decl.scope = chainScope := by
  obtain ⟨file, hfile, hdecl⟩ := mem_flatMap.1 (Package.mem_of_lookup? h)
  obtain ⟨spec, -, rfl⟩ := mem_map.1 hdecl
  rw [mem_singleton.1 hfile]
  rfl

/-- Where every alias may be followed, the first name of a chain means what its end means. -/
theorem denotes_chain {n : NormalType} {last : String} (names : List String)
    (hlinks : ∀ link ∈ names.zip (names.drop 1 ++ [last]), (chainScope.package.lookup? link.1).any
      (fun decl => isFollowed decl && decl.spec.type == .name link.2) = true)
    (hlast : ∀ k depth, chainProgram.Denotes (fun _ => True) k chainScope depth (.name last) n)
    (depth : Nat) : chainProgram.Denotes (fun _ => True) names.length chainScope depth
      (.name ((names ++ [last]).headD last)) n := by
  induction names generalizing depth with
  | nil => exact hlast 0 depth
  | cons name names ih =>
    obtain ⟨hfirst, hrest⟩ : (chainScope.package.lookup? name).any (fun decl => isFollowed decl &&
        decl.spec.type == .name ((names ++ [last]).headD last)) = true ∧
        ∀ link ∈ names.zip (names.drop 1 ++ [last]), (chainScope.package.lookup? link.1).any
          (fun decl => isFollowed decl && decl.spec.type == .name link.2) = true := by
      cases names with
      | nil => simpa using hlinks
      | cons next names => simpa using hlinks
    rw [Option.any_eq_true] at hfirst
    obtain ⟨decl, hdecl, hfollowed⟩ := hfirst
    rw [Bool.and_eq_true, beq_iff_eq] at hfollowed
    have hresolve : chainProgram.resolveType? chainScope (.name name) = some decl := by
      rw [resolveType?, resolveName, hdecl]
    refine .followed rfl hresolve hfollowed.1 trivial ?_
    rw [hfollowed.2, scope_of_lookup?_chain hdecl]
    exact ih hrest (depth + 1)

/-- Where an alias leads on by more than `hopLimit` others to `int`, it is not followed that far:
its canonical text differs from that of `int`, which it means if every alias is followed. -/
theorem canonical_ne_aliasChain :
    ∃ p scope n, load ((Shelf.empty none).addFile "m/a" "a.go" chainText).toSource ["m/a"] = .ok p ∧
      p.HasPlainPaths ∧ p.IsScope scope ∧ TypeExpr.parse "A" = .ok (.name "A") ∧
      TypeExpr.parse "int" = .ok (.name "int") ∧
      (∃ k, p.Denotes (fun _ => True) k scope 0 (.name "A") n) ∧
      (∃ k, p.Denotes (fun _ => True) k scope 0 (.name "int") n) ∧ n.NamesApplied ∧
      p.canonical scope (.name "A") ≠ p.canonical scope (.name "int") := by
  have hparse : SourceFile.parse chainText = .ok chainFile := by decide +kernel
  have hint : chainProgram.resolveName chainScope "int" = .predeclared := by decide +kernel
  have hlast : ∀ k depth, chainProgram.Denotes (fun _ => True) k chainScope depth (.name "int")
      (.ofPredeclared "int") := fun k depth => .predeclared hint
  refine ⟨chainProgram, chainScope, .ofPredeclared "int",
    load_single "m/a" "a.go" hparse rfl (by decide), hasPlainPaths_single (by decide) rfl,
    ⟨mem_singleton_self _, mem_singleton_self _⟩, by decide +kernel, by decide +kernel,
    ⟨_, denotes_chain chainNames (by decide +kernel) hlast 0⟩, ⟨0, hlast 0 0⟩, ?_,
    by decide +kernel⟩
  rw [show ofPredeclared "int" = .named none "int" from rfl, NamesApplied]
  trivial

/-! ### Texts that two types share -/

/-- A file that declares a type and another name for slices of it. -/
def slicedText : String :=
  "package a;type(G int;A=[]G)"

/-- What is declared in this file. -/
def slicedFile : SourceFile where
  package := "a"
  packageSpan := ⟨0, 9⟩
  imports := []
  decls := [.types ⟨10, 27⟩ [⟨"G", ⟨15, 20⟩, [], false, .name "int"⟩,
    ⟨"A", ⟨21, 26⟩, [], true, .slice (.name "G")⟩]]

/-- The program of this file, if its package has this path. -/
def slicedProgram (path : String) : Program :=
  single path "a.go" slicedText slicedFile

/-- Where the names of this file are looked up. -/
def slicedScope (path : String) : Scope :=
  ((slicedProgram path).typeDecls.headD default).scope

/-- The program is loaded, and the names can be looked up in its file. -/
theorem load_sliced {path : String} (hpath : isPseudo path = false) :
    load ((Shelf.empty none).addFile path "a.go" slicedText).toSource [path]
      = .ok (slicedProgram path) ∧ (slicedProgram path).IsScope (slicedScope path) := by
  have hparse : SourceFile.parse slicedText = .ok slicedFile := by decide +kernel
  exact ⟨load_single path "a.go" hparse rfl hpath,
    ⟨mem_singleton_self _, mem_singleton_self _⟩⟩

/-- The declared type means itself there. -/
theorem slicedProgram_denotes (path : String) (k depth : Nat) :
    (slicedProgram path).Denotes (· < hopLimit) k (slicedScope path) depth (.name "G")
      (.named (some path) "G") := by
  have hG : (slicedProgram path).resolveType? (slicedScope path) (.name "G")
      = some ((slicedProgram path).typeDecls.headD default) := rfl
  exact .declared rfl hG fun h => Bool.noConfusion h.1

/-- A path may not begin like the mark of a variadic parameter: else a parameter of one of its types
has the text of a variadic parameter of a type with another path. -/
theorem canonical_eq_dots :
    ∃ p scope t t' n n',
      load ((Shelf.empty none).addFile "...x" "a.go" slicedText).toSource ["...x"] = .ok p ∧
      p.IsScope scope ∧ TypeExpr.parse "func(G)" = .ok t ∧ TypeExpr.parse "func(...x.G)" = .ok t' ∧
      p.Means scope t n ∧ p.Means scope t' n' ∧ n.NamesApplied ∧ n'.NamesApplied ∧
      p.canonical scope t = p.canonical scope t' ∧ ¬n.Same n' := by
  obtain ⟨hload, hscope⟩ := load_sliced (show isPseudo "...x" = false by decide)
  have hx : (slicedProgram "...x").qualifierPath? (slicedScope "...x").file "x" = none := by
    decide +kernel
  refine ⟨_, slicedScope "...x", .func ⟨[.unnamed (.name "G")], []⟩,
    .func ⟨[.unnamed (.ellipsis (.qualified "x" "G"))], []⟩,
    .func ⟨[.named (some "...x") "G"], [], false⟩, .func ⟨[.slice (.named (some "x") "G")], [], true⟩,
    hload, hscope, by decide +kernel, by decide +kernel, ⟨0, ?_⟩, ⟨0, ?_⟩, ?_, ?_,
    by decide +kernel, ?_⟩
  · exact .func (fun _ => .named (some "...x") "G")
      (forall_mem_singleton.2 (slicedProgram_denotes _ _ _))
      fun _ h => absurd h not_mem_nil
  · exact .func (fun _ => .slice (.named (some "x") "G"))
      (forall_mem_singleton.2 (.ellipsis (.unbound hx)))
      fun _ h => absurd h not_mem_nil
  · simp [NormalType.NamesApplied, NormalSignature.NamesApplied]
  · simp [NormalType.NamesApplied, NormalSignature.NamesApplied]
  · simp [Same, NormalSignature.Same]

/-- What a type means that is written with one type argument. -/
theorem Denotes.applied {p : Program} {follows : Nat → Prop} {k depth : Nat} {scope : Scope}
    {base arg : TypeExpr} {n m : NormalType} (hne : arg ≠ base)
    (hbase : p.Denotes follows k scope depth base n) (harg : p.Denotes follows k scope depth arg m) :
    p.Denotes follows k scope depth (.generic base [arg]) (.generic n [m]) := by
  classical
  have h : p.Denotes follows k scope depth (.generic base [arg]) _ :=
    .generic (fun t => if t = base then n else m) (by simpa using hbase) (by simpa [hne] using harg)
  simpa [hne] using h

/-- Type arguments may stand only behind names: else those of an alias of a slice have the text of
type arguments of the elements. -/
theorem canonical_eq_applied :
    ∃ p scope t t' n n',
      load ((Shelf.empty none).addFile "m/a" "a.go" slicedText).toSource ["m/a"] = .ok p ∧
      p.HasPlainPaths ∧ p.IsScope scope ∧ TypeExpr.parse "A[int]" = .ok t ∧
      TypeExpr.parse "[]G[int]" = .ok t' ∧ p.Means scope t n ∧ p.Means scope t' n' ∧
      p.canonical scope t = p.canonical scope t' ∧ ¬n.Same n' := by
  obtain ⟨hload, hscope⟩ := load_sliced (show isPseudo "m/a" = false by decide)
  have hA : (slicedProgram "m/a").resolveType? (slicedScope "m/a") (.name "A")
      = some ((slicedProgram "m/a").typeDecls.getD 1 default) := by decide +kernel
  have hint : ∀ k, (slicedProgram "m/a").Denotes (· < hopLimit) k (slicedScope "m/a") 0
      (.name "int") (.named none "int") := fun k => .predeclared (by decide +kernel)
  refine ⟨_, slicedScope "m/a", .generic (.name "A") [.name "int"],
    .slice (.generic (.name "G") [.name "int"]),
    .generic (.slice (.named (some "m/a") "G")) [.named none "int"],
    .slice (.generic (.named (some "m/a") "G") [.named none "int"]), hload,
    hasPlainPaths_single (by decide) rfl, hscope, by decide +kernel, by decide +kernel, ⟨1, ?_⟩, ⟨0, ?_⟩, by decide +kernel, ?_⟩
  · exact .applied (by decide +kernel) (.followed rfl hA (by decide +kernel) (by decide)
      (.slice (slicedProgram_denotes _ _ _))) (hint 1)
  · exact .slice (.applied (by decide +kernel) (slicedProgram_denotes _ _ _) (hint 0))
  · simp [Same]

end Program

end Stubwright
