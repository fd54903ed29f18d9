import Stubwright.Requalify
import Stubwright.Proofs.ImportTable
import Stubwright.Proofs.References

/-!
# What requalifying does

A signature that moves to another file is rewritten reference by reference.  This module says once
what the step at one reference can do, and what a whole call does to the import table.

* `ImportTable.Grows`: a table comes from another by adding imports one after the other, each for a
  path without a binding and under a new name.  Every call makes the table grow in this sense,
  whether it succeeds or fails (`Program.grows_requalify`).
-/

namespace Stubwright

open List

variable {pkg : Package} {name path : String} {decl : Declared} {p : Program} {scope : Scope}

/-! ## What references stand for -/

/-- What a reference stands for in a scope: the import path and the name of a declared type, or the
name alone of a predeclared one. -/
def Program.denotation? (p : Program) (scope : Scope) : TypeExpr → Option (Option String × String)
  | .name name =>
    match p.resolveName scope name with
    | .declared decl => some (some decl.package.path, decl.name)
    | .predeclared => some (none, name)
    | .unknown => none
  | .qualified package name =>
    (p.qualifierPath? scope.file package).map fun path => (some path, name)
  | _ => none

theorem Package.name_of_lookup? (h : pkg.lookup? name = some decl) : decl.name = name := by
  rw [lookup?_eq_find?] at h
  simpa [Declared.name] using find?_some h

theorem Package.package_of_lookup? (h : pkg.lookup? name = some decl) : decl.package = pkg := by
  have hmem := mem_of_lookup? h
  simp only [Package.typeDecls, mem_flatMap, mem_map] at hmem
  obtain ⟨file, -, spec, -, rfl⟩ := hmem
  rfl

theorem Program.path_of_package? (h : p.package? path = some pkg) : pkg.path = path := by
  simpa using find?_some h

/-- A bare name that stands for a declared type is found in the scope's own package or in a package
that the file sees through a dot. -/
theorem Program.resolveName_declared
    (h : p.resolveName scope name = .declared decl) :
    scope.package.lookup? name = some decl ∨ ∃ path ∈ scope.file.dotImports, ∃ pkg,
      p.package? path = some pkg ∧ pkg.lookup? name = some decl := by
  unfold Program.resolveName at h
  split at h
  · rename_i d hd
    cases h
    exact .inl hd
  · split at h
    · rename_i d hd
      cases h
      obtain ⟨path, hmem, hpath⟩ := exists_of_findSome?_eq_some hd
      obtain ⟨pkg, hpkg, hlookup⟩ := Option.bind_eq_some_iff.1 hpath
      exact .inr ⟨path, hmem, pkg, hpkg, hlookup⟩
    · split at h <;> cases h

/-- A bare name that stands for a declared type is the name of that type. -/
theorem Program.name_of_resolveName
    (h : p.resolveName scope name = .declared decl) : decl.name = name := by
  rcases Program.resolveName_declared h with hlookup | ⟨-, -, pkg, -, hlookup⟩
  · exact Package.name_of_lookup? hlookup
  · exact Package.name_of_lookup? hlookup

/-! ## One reference -/

namespace Program

variable {file : PackageFile} {l : TypeExpr} {reserved : Names} {explicit : Bool}

/-- The name that a file suggests for an import of the package at `path`, and whether it spells it
out. -/
inductive Suggests (p : Program) (file : PackageFile) (path : String) : String → Bool → Prop
  /-- The name that the file gives the package. -/
  | given {name : String} (h : file.aliasOf? path = some name) : Suggests p file path name true
  | own : Suggests p file path (p.packageName path) false

/-- How a reference, written in `file`, to the type `name` of the package at `path` is written in the
destination, and the table afterwards. -/
inductive Writes (p : Program) (dest : Scope) (file : PackageFile) (t : ImportTable)
    (path name : String) : TypeExpr → ImportTable → Prop
  /-- A type of the destination's own package is written bare. -/
  | own (h : path = dest.package.path) : Writes p dest file t path name (.name name) t
  /-- A package that has a qualifier is referred to by that. -/
  | named {q : String} (h : path ≠ dest.package.path) (hq : t.binding? p path = some (.named q)) :
    Writes p dest file t path name (.qualified q name) t
  /-- A package that is imported with a dot needs no qualifier. -/
  | dot (h : path ≠ dest.package.path) (hdot : t.binding? p path = some .dot) :
    Writes p dest file t path name (.name name) t
  | imported {preferred : String} {explicit : Bool} (h : path ≠ dest.package.path)
    (hnone : t.binding? p path = none) (hsuggests : Suggests p file path preferred explicit) :
    Writes p dest file t path name
      (.qualified (t.bind p dest.package.declaredNames path preferred explicit).1 name)
      (t.bind p dest.package.declaredNames path preferred explicit).2

/-- What a reference becomes. -/
abbrev requalifyReference (p : Program) (dest origin : Scope) : TypeExpr → Importing TypeExpr :=
  decideReference (p.requalifyNode dest origin)

variable {p : Program} {dest origin : Scope}

theorem run_qualifierFor (path preferred : String) (explicit : Bool) (t : ImportTable) :
    (p.qualifierFor dest path preferred explicit).run t = match t.binding? p path with
      | some (.named q) => (.ok (some q), t)
      | some .dot => (.ok none, t)
      | none =>
        (.ok (some (t.bind p dest.package.declaredNames path preferred explicit).1),
          (t.bind p dest.package.declaredNames path preferred explicit).2) := by
  rw [qualifierFor, run_bind_exceptState]
  change (match t.binding? p path with
    | some (.named q) => (pure (some q) : Importing (Option String))
    | some .dot => pure none
    | none => _).run t = _
  rcases t.binding? p path with _ | ⟨q⟩ | _ <;> rfl

theorem Suggests.preferred (h : Suggests p file path name explicit) :
    ImportTable.Preferred p path name explicit := by
  cases h with
  | given h =>
    obtain ⟨spec, -, hspec⟩ := exists_of_findSome?_eq_some h
    obtain ⟨-, hname⟩ := Option.filter_eq_some_iff.1 hspec
    refine .inl ⟨rfl, ?_⟩
    simpa using hname
  | own => exact .inr ⟨rfl, rfl⟩

/-- A step that asks for the qualifier of another package writes the reference with it. -/
theorem writes_qualifierFor (name : String) (t : ImportTable) {preferred : String}
    (hpath : path ≠ dest.package.path) (hsuggests : Suggests p file path preferred explicit) :
    ∃ q t', (p.qualifierFor dest path preferred explicit).run t = (.ok q, t') ∧
      Writes p dest file t path name (match q with
        | none => .name name
        | some q => .qualified q name) t' := by
  rw [run_qualifierFor]
  rcases hb : t.binding? p path with _ | ⟨q⟩ | _
  · exact ⟨_, _, rfl, .imported hpath hb hsuggests⟩
  · exact ⟨_, _, rfl, .named hpath hb⟩
  · exact ⟨_, _, rfl, .dot hpath hb⟩

/-- A reference to a declared type is written in one of the four ways. -/
theorem run_requalifyReference_declared (dest : Scope) (t : ImportTable)
    (h : p.denotation? origin l = some (some path, name)) :
    ∃ l' t', (p.requalifyReference dest origin l).run t = (.ok l', t') ∧
      Writes p dest origin.file t path name l' t' := by
  cases l with
  | name n =>
    simp only [denotation?] at h
    split at h
    · rename_i decl hdecl
      have hname := name_of_resolveName hdecl
      simp only [Option.some.injEq, Prod.mk.injEq] at h
      obtain ⟨rfl, rfl⟩ := h
      subst hname
      by_cases hpath : decl.package.path = dest.package.path
      · refine ⟨_, t, ?_, .own hpath⟩
        simp only [requalifyReference, decideReference, requalifyNode, hdecl, if_pos hpath]
        rfl
      · have hown : Suggests p origin.file decl.package.path _ _ := .own
        obtain ⟨q, t', hrun, hw⟩ := writes_qualifierFor decl.name t hpath hown
        refine ⟨_, t', ?_, hw⟩
        simp only [requalifyReference, decideReference, requalifyNode, hdecl, if_neg hpath,
          run_bind_exceptState, hrun]
        cases q <;> rfl
    · cases h
    · cases h
  | qualified package n =>
    simp only [denotation?, Option.map_eq_some_iff, Prod.mk.injEq, Option.some.injEq] at h
    obtain ⟨path, hq, rfl, rfl⟩ := h
    simp only [requalifyReference, decideReference, requalifyNode, hq]
    by_cases hpath : path = dest.package.path
    · refine ⟨_, t, ?_, .own hpath⟩
      simp only [if_pos hpath]
      rfl
    · have finish : ∀ preferred explicit, Suggests p origin.file path preferred explicit →
          ∃ l' t', (((p.qualifierFor dest path preferred explicit >>= fun
              | none => pure (.replace (.name n))
              | some q => pure (if q = package then .keep else .replace (.qualified q n))) >>=
            fun d => pure (Decision.applyTo d (.qualified package n))) :
              Importing TypeExpr).run t = (.ok l', t') ∧
            Writes p dest origin.file t path n l' t' := by
        intro preferred explicit hsuggests
        obtain ⟨q, t', hrun, hw⟩ := writes_qualifierFor n t hpath hsuggests
        refine ⟨_, t', ?_, hw⟩
        simp only [run_bind_exceptState, hrun]
        cases q with
        | none => rfl
        | some q => by_cases hsame : q = package <;> simp [hsame, Decision.applyTo]
      -- the name that the origin gives the package, if any, is the preferred one
      simp only [if_neg hpath]
      cases halias : origin.file.aliasOf? path with
      | some given => exact finish given true (.given halias)
      | none => exact finish (p.packageName path) false .own
  | _ => cases h

theorem run_requalifyReference_predeclared (dest : Scope) (t : ImportTable)
    (h : p.denotation? origin l = some (none, name)) :
    l = .name name ∧ (p.requalifyReference dest origin l).run t = (.ok l, t) := by
  cases l with
  | name n =>
    simp only [denotation?] at h
    split at h
    · cases h
    · rename_i hpre
      cases h
      refine ⟨rfl, ?_⟩
      simp only [requalifyReference, decideReference, requalifyNode, hpre]
      rfl
    · cases h
  | qualified package n => simp [denotation?] at h
  | _ => cases h

/-- A reference that stands for nothing known adds no import: a bare name stays, and a qualifier
makes the call fail. -/
theorem run_requalifyReference_unknown (dest : Scope) (t : ImportTable) (hl : l.isReference = true)
    (h : p.denotation? origin l = none) :
    (p.requalifyReference dest origin l).run t = (.ok l, t) ∨
      ∃ e, (p.requalifyReference dest origin l).run t = (.error e, t) := by
  cases l with
  | name n =>
    simp only [denotation?] at h
    split at h
    · cases h
    · cases h
    · rename_i hunknown
      left
      simp only [requalifyReference, decideReference, requalifyNode, hunknown]
      rfl
  | qualified package n =>
    have hq : p.qualifierPath? origin.file package = none := by simpa [denotation?] using h
    right
    simp only [requalifyReference, decideReference, requalifyNode, hq]
    exact ⟨_, rfl⟩
  | _ => cases hl

theorem onReferences_requalifyNode (p : Program) (dest origin : Scope) :
    OnReferences (p.requalifyNode dest origin) := by
  refine ⟨?_, ?_⟩
  · intro t ht
    cases t <;> first | rfl | cases ht
  · intro l t d t' hl hd
    have hrun : (p.requalifyReference dest origin l).run t = (.ok (d.applyTo l), t') := by
      rw [requalifyReference, decideReference, run_bind_exceptState, hd]
      rfl
    have same : ∀ l' t'', (p.requalifyReference dest origin l).run t = (.ok l', t'') →
        d.applyTo l = l' :=
      fun l' t'' h => Except.ok.inj (congrArg Prod.fst (hrun.symm.trans h))
    rcases hden : p.denotation? origin l with _ | ⟨_ | path, name⟩
    · rcases run_requalifyReference_unknown dest t hl hden with h | ⟨e, h⟩
      · rw [same _ _ h]; exact hl
      · rw [h] at hrun; cases hrun
    · rw [same _ _ (run_requalifyReference_predeclared dest t hden).2]
      exact hl
    · obtain ⟨l', t'', h, hw⟩ := run_requalifyReference_declared dest t hden
      rw [same _ _ h]
      cases hw <;> rfl

/-! ## A pass over references -/

/-- Where a reference to the type `name` of the package at `path` has come to stand: bare for the
destination's own package or one that the table sees through a dot, else with the qualifier that
the table has for the path. -/
inductive Placed (p : Program) (dest : Scope) (t : ImportTable) (path name : String) :
    TypeExpr → Prop
  | own (h : path = dest.package.path) : Placed p dest t path name (.name name)
  | named {q : String} (h : path ≠ dest.package.path) (hq : t.binding? p path = some (.named q)) :
    Placed p dest t path name (.qualified q name)
  | dot (h : path ≠ dest.package.path) (hdot : t.binding? p path = some .dot) :
    Placed p dest t path name (.name name)

/-- A reference `l` became `l'`: a reference to a declared type has come to its place, and any other
stayed as it was. -/
def Became (p : Program) (dest origin : Scope) (t : ImportTable) (l l' : TypeExpr) : Prop :=
  match p.denotation? origin l with
  | some (some path, name) => Placed p dest t path name l'
  | _ => l' = l

/-- Every entry that `t'` has more than `t` binds the qualifier of one of these references. -/
def UsesAdded (p : Program) (t t' : ImportTable) (refs : List TypeExpr) : Prop :=
  ∀ adds, t'.entries = t.entries ++ adds → ∀ e ∈ adds, ∃ q name,
    p.boundName? e.name e.path = some q ∧ .qualified q name ∈ refs

variable {t t' : ImportTable}

theorem Placed.mono (h : Placed p dest t path name l) (hg : t.Grows p reserved t') :
    Placed p dest t' path name l := by
  cases h with
  | own h => exact .own h
  | named h hq => exact .named h (hg.binding?_eq hq)
  | dot h hdot => exact .dot h (hg.binding?_eq hdot)

theorem Became.mono {l' : TypeExpr} (h : Became p dest origin t l l') (hg : t.Grows p reserved t') :
    Became p dest origin t' l l' := by
  unfold Became at h ⊢
  split at h
  · exact h.mono hg
  · exact h

/-- Where nothing was added, nothing has to be used. -/
theorem UsesAdded.refl (refs : List TypeExpr) : UsesAdded p t t refs := by
  intro adds heq e he
  obtain rfl : adds = [] := by simpa using heq
  cases he

/-- Writing a reference makes the table grow, brings the reference to its place, and uses what was
added. -/
theorem Writes.spec (h : Writes p dest file t path name l t') :
    t.Grows p dest.package.declaredNames t' ∧ Placed p dest t' path name l ∧
      UsesAdded p t t' [l] := by
  cases h with
  | own h => exact ⟨.refl, .own h, .refl _⟩
  | named h hq => exact ⟨.refl, .named h hq, .refl _⟩
  | dot h hdot => exact ⟨.refl, .dot h hdot, .refl _⟩
  | @imported preferred explicit h hnone hsuggests =>
    have hgrows := ImportTable.grows_bind dest.package.declaredNames hnone hsuggests.preferred
    obtain ⟨written, hentries, hbound, -⟩ :=
      ImportTable.bind_spec dest.package.declaredNames hnone hsuggests.preferred
    refine ⟨hgrows, .named h ?_, ?_⟩
    · have hnamed := ImportTable.binding?_append_of_none (e := ⟨written, path, true⟩) hnone hbound
      rwa [← hentries] at hnamed
    · intro adds heq e he
      rw [hentries] at heq
      obtain rfl := append_cancel_left heq
      obtain rfl := mem_singleton.1 he
      exact ⟨_, name, hbound, mem_singleton.2 rfl⟩

/-- The step at one reference: the table grows, and if the step succeeds the reference has come to
its place and what was added is used.  It succeeds where the reference stands for something. -/
theorem run_requalifyReference (dest origin : Scope) (hl : l.isReference = true) (t : ImportTable) :
    ∃ r t', (p.requalifyReference dest origin l).run t = (r, t') ∧
      t.Grows p dest.package.declaredNames t' ∧
      ((p.denotation? origin l).isSome → ∃ l', r = .ok l') ∧
      ∀ l', r = .ok l' → Became p dest origin t' l l' ∧ UsesAdded p t t' [l'] := by
  rcases hden : p.denotation? origin l with _ | ⟨_ | path, name⟩
  · rcases run_requalifyReference_unknown dest t hl hden with h | ⟨e, h⟩
    · refine ⟨_, t, h, .refl, fun _ => ⟨l, rfl⟩, ?_⟩
      rintro l' ⟨⟩
      exact ⟨by rw [Became, hden], .refl _⟩
    · refine ⟨_, t, h, .refl, (fun hsome => by cases hsome), ?_⟩
      rintro l' ⟨⟩
  · refine ⟨_, t, (run_requalifyReference_predeclared dest t hden).2, .refl, fun _ => ⟨l, rfl⟩, ?_⟩
    rintro l' ⟨⟩
    exact ⟨by rw [Became, hden], .refl _⟩
  · obtain ⟨l', t', h, hw⟩ := run_requalifyReference_declared dest t hden
    obtain ⟨hgrows, hplaced, hused⟩ := hw.spec
    refine ⟨_, t', h, hgrows, fun _ => ⟨l', rfl⟩, ?_⟩
    rintro _ ⟨⟩
    exact ⟨by rw [Became, hden]; exact hplaced, hused⟩

/-- What two passes add is used by the references of both. -/
theorem UsesAdded.append {t'' : ImportTable} {refs refs' : List TypeExpr}
    (h : UsesAdded p t t' refs) (h' : UsesAdded p t' t'' refs') (hg : t.Grows p reserved t')
    (hg' : t'.Grows p reserved t'') : UsesAdded p t t'' (refs ++ refs') := by
  obtain ⟨adds₁, heq₁, -⟩ := hg.exists_append
  obtain ⟨adds₂, heq₂, -⟩ := hg'.exists_append
  intro adds heq e he
  obtain rfl : adds = adds₁ ++ adds₂ := by
    rw [heq₂, heq₁, append_assoc] at heq
    exact (append_cancel_left heq).symm
  rcases mem_append.1 he with he | he
  · obtain ⟨q, name, hq, hmem⟩ := h adds₁ heq₁ e he
    exact ⟨q, name, hq, mem_append_left _ hmem⟩
  · obtain ⟨q, name, hq, hmem⟩ := h' adds₂ heq₂ e he
    exact ⟨q, name, hq, mem_append_right _ hmem⟩

/-- A pass over references: the table grows all along, and if the pass succeeds every reference has
come to its place and what was added is used.  It succeeds where every reference stands for
something. -/
theorem run_requalifyReferences (p : Program) (dest origin : Scope) (refs : List TypeExpr)
    (hrefs : ∀ l ∈ refs, l.isReference = true) (t : ImportTable) :
    ∃ r t', (refs.mapM (p.requalifyReference dest origin)).run t = (r, t') ∧
      t.Grows p dest.package.declaredNames t' ∧
      ((∀ l ∈ refs, (p.denotation? origin l).isSome) → ∃ refs', r = .ok refs') ∧
      ∀ refs', r = .ok refs' →
        List.Forall₂ (Became p dest origin t') refs refs' ∧ UsesAdded p t t' refs' := by
  induction refs generalizing t with
  | nil =>
    refine ⟨_, t, rfl, .refl, fun _ => ⟨[], rfl⟩, ?_⟩
    rintro _ ⟨⟩
    exact ⟨.nil, .refl _⟩
  | cons l refs ih =>
    obtain ⟨r₁, t₁, hrun₁, hg₁, hsome₁, hok₁⟩ :=
      run_requalifyReference dest origin (hrefs l mem_cons_self) t
    rw [mapM_cons, run_bind_exceptState, hrun₁]
    cases r₁ with
    | error e =>
      refine ⟨_, t₁, rfl, hg₁, fun hden => ?_, by rintro _ ⟨⟩⟩
      obtain ⟨_, ⟨⟩⟩ := hsome₁ (hden l mem_cons_self)
    | ok l' =>
      obtain ⟨hbecame, hused⟩ := hok₁ l' rfl
      obtain ⟨r₂, t₂, hrun₂, hg₂, hsome₂, hok₂⟩ :=
        ih (fun l hl => hrefs l (mem_cons_of_mem _ hl)) t₁
      simp only [run_bind_exceptState, hrun₂]
      cases r₂ with
      | error e =>
        refine ⟨_, t₂, rfl, hg₁.trans hg₂, fun hden => ?_, by rintro _ ⟨⟩⟩
        obtain ⟨_, ⟨⟩⟩ := hsome₂ fun l hl => hden l (mem_cons_of_mem _ hl)
      | ok refs' =>
        obtain ⟨hall, hused'⟩ := hok₂ refs' rfl
        refine ⟨_, t₂, rfl, hg₁.trans hg₂, fun _ => ⟨_, rfl⟩, ?_⟩
        rintro _ ⟨⟩
        exact ⟨.cons (hbecame.mono hg₂) hall, hused.append hused' hg₁ hg₂⟩

/-! ## Calls -/

theorem isReference_of_mem_references {sig : Signature} (h : l ∈ sig.references) :
    l.isReference = true :=
  (mem_filter.1 h).2

/-- A qualifier that a reference came to have is bound in the table. -/
theorem Became.isSome_boundPath? {q : String} (hsome : (p.denotation? origin l).isSome)
    (h : Became p dest origin t l (.qualified q name)) : (t.boundPath? p q).isSome := by
  rcases hden : p.denotation? origin l with _ | ⟨_ | path, n⟩
  · rw [hden] at hsome; cases hsome
  · rw [Became, hden] at h
    rw [(run_requalifyReference_predeclared dest t hden).1] at h
    cases h
  · rw [Became, hden] at h
    cases h with
    | named hpath hq =>
      obtain ⟨e, he, -, hbound⟩ := ImportTable.exists_of_binding?_named hq
      rw [ImportTable.boundPath?, Option.isSome_map, find?_isSome]
      exact ⟨e, he, by simp [hbound]⟩

/-- After a pass over references that stand for something every qualifier is bound. -/
theorem unboundQualifier?_eq_none {sig sig' : Signature}
    (hsome : ∀ l ∈ sig.references, (p.denotation? origin l).isSome)
    (h : List.Forall₂ (Became p dest origin t) sig.references sig'.references) :
    p.unboundQualifier? t sig' = none := by
  rw [unboundQualifier?, findSome?_eq_none_iff]
  intro l' hl'
  obtain ⟨l, hl, hbecame⟩ := exists_related_of_mem h hl'
  split
  · have := hbecame.isSome_boundPath? (hsome l hl)
    simp [Option.isSome_iff_ne_none.1 this]
  · rfl

/-- A call: the table grows whether the call succeeds or fails.  If it succeeds, the signature has
the skeleton it had, every reference has come to its place, and what was added is used.  It
succeeds where every reference stands for something. -/
theorem run_requalify (p : Program) (dest origin : Scope) (sig : Signature) (t : ImportTable) :
    ∃ r t', (p.requalify dest origin sig).run t = (r, t') ∧
      t.Grows p dest.package.declaredNames t' ∧
      ((∀ l ∈ sig.references, (p.denotation? origin l).isSome) → ∃ sig', r = .ok sig') ∧
      ∀ sig', r = .ok sig' → sig'.skeleton = sig.skeleton ∧
        List.Forall₂ (Became p dest origin t') sig.references sig'.references ∧
        UsesAdded p t t' sig'.references := by
  obtain ⟨r, t', hpass, hgrows, hsome, hok⟩ := run_requalifyReferences p dest origin sig.references
    (fun l hl => isReference_of_mem_references hl) t
  have hsim := sig.rebuilds_transformM (onReferences_requalifyNode p dest origin)
  rw [requalify, run_bind_exceptState]
  rcases hsim.run_cases t with ⟨sig', t₁, htree, hrefs, hskeleton⟩ | ⟨e, t₁, htree, hrefs⟩
  · obtain ⟨rfl, rfl⟩ : (.ok sig'.references : Except StubError _) = r ∧ t₁ = t' :=
      Prod.mk.inj (hrefs.symm.trans hpass)
    obtain ⟨hbecame, hused⟩ := hok _ rfl
    simp only [htree]
    rw [run_bind_exceptState]
    have hget : (get : Importing ImportTable).run t₁ = (.ok t₁, t₁) := rfl
    simp only [hget]
    cases hunbound : p.unboundQualifier? t₁ sig' with
    | none =>
      refine ⟨_, t₁, rfl, hgrows, fun _ => ⟨sig', rfl⟩, ?_⟩
      rintro _ ⟨⟩
      exact ⟨hskeleton, hbecame, hused⟩
    | some q =>
      refine ⟨_, t₁, rfl, hgrows, fun hden => ?_, by rintro _ ⟨⟩⟩
      rw [unboundQualifier?_eq_none hden hbecame] at hunbound
      cases hunbound
  · obtain ⟨rfl, rfl⟩ : (.error e : Except StubError _) = r ∧ t₁ = t' :=
      Prod.mk.inj (hrefs.symm.trans hpass)
    simp only [htree]
    refine ⟨_, t₁, rfl, hgrows, fun hden => ?_, by rintro _ ⟨⟩⟩
    obtain ⟨_, ⟨⟩⟩ := hsome hden

/-- The table after calls for several signatures, each with the scope it was written in, one after
the other; calls that fail leave what they added. -/
def requalifyAll (p : Program) (dest : Scope) (calls : List (Scope × Signature))
    (t : ImportTable) : ImportTable :=
  calls.foldl (fun t call => ((p.requalify dest call.1 call.2).run t).2) t

theorem grows_requalify (p : Program) (dest origin : Scope) (sig : Signature) (t : ImportTable) :
    t.Grows p dest.package.declaredNames ((p.requalify dest origin sig).run t).2 := by
  obtain ⟨r, t', hrun, hgrows, -, -⟩ := run_requalify p dest origin sig t
  rw [hrun]
  exact hgrows

theorem grows_requalifyAll (p : Program) (dest : Scope) (calls : List (Scope × Signature))
    (t : ImportTable) :
    t.Grows p dest.package.declaredNames (p.requalifyAll dest calls t) := by
  induction calls generalizing t with
  | nil => exact .refl
  | cons call calls ih =>
    exact (grows_requalify p dest call.1 call.2 t).trans (ih _)

end Program

end Stubwright
