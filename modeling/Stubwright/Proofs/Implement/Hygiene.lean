import Stubwright.Proofs.Implement

/-!
# Names that stubs bring along

Stubs make a file import packages under names that it has not used before, and they write some types
by their bare names.  Where a stub stands, its package and the type parameters of its receiver have
names too.

* `hygienic_implement`: where the names of imports and types in stubs come from.
-/

namespace Stubwright

open List

/-! ## Variables and constants -/

/-- The names that a declaration of variables or constants declares, by its tokens: the names that
it begins with, and so for each part of a group.  `naming` says that such names are due, and `depth`
how many brackets are open otherwise. -/
def valueNamesFrom (naming : Bool) (depth : Nat) : List Token → List String
  | [] => []
  | t :: ts =>
    if naming then
      if t.kind = .ident then t.text :: valueNamesFrom (ts.head?.any (·.kind = .comma)) 0 ts
      -- the keyword, the parenthesis of a group, a comma between two names
      else valueNamesFrom true 0 ts
    else match t.kind with
      | .lParen | .lBrack | .lBrace => valueNamesFrom false (depth + 1) ts
      | .rParen | .rBrack | .rBrace => valueNamesFrom false (depth - 1) ts
      | .semi => valueNamesFrom (depth = 0) depth ts
      | _ => valueNamesFrom false depth ts

namespace PackageFile

/-- The tokens of a file within a range. -/
def tokensIn (f : PackageFile) (span : Span) : List Token :=
  ((tokenize f.text.toList).toOption.getD []).filter fun t =>
    span.start ≤ t.start ∧ t.stop ≤ span.stop

/-- The names of the variables and constants that a file declares. -/
def valueNames (f : PackageFile) : List String :=
  f.source.decls.flatMap fun
    | .value span => valueNamesFrom true 0 (f.tokensIn span)
    | _ => []

/-- The names of the types and functions that a file declares. -/
def declaredNames (f : PackageFile) : List String :=
  f.source.typeSpecs.map (·.name) ++ (f.source.funcs.filter (·.recv.isNone)).map (·.name)

end PackageFile

theorem Package.mem_declaredNames {pkg : Package} {file : PackageFile} {name : String}
    (hfile : file ∈ pkg.files) (h : name ∈ file.declaredNames) : name ∈ pkg.declaredNames := by
  rw [Package.declaredNames, Names.mem_ofList, mem_append]
  rcases mem_append.1 h with h | h
  · obtain ⟨spec, hspec, rfl⟩ := mem_map.1 h
    refine .inl (mem_map.2 ⟨⟨pkg, file, spec⟩, ?_, rfl⟩)
    exact mem_flatMap.2 ⟨file, hfile, mem_map.2 ⟨spec, hspec, rfl⟩⟩
  · exact .inr (mem_flatMap.2 ⟨file, hfile, h⟩)

/-! ## The names of added imports -/

/-- `q` is the first of `base`, `base2`, `base3`, … that is not taken. -/
def FirstFree (taken : List String) (base q : String) : Prop :=
  q ∉ taken ∧ (q = base ∨ base ∈ taken ∧ ∃ k, 2 ≤ k ∧ q = base ++ toString k ∧
    ∀ j, 2 ≤ j → j < k → base ++ toString j ∈ taken)

theorem firstFree_freeName (taken : List String) (base : String) :
    FirstFree taken base (ImportTable.freeName base taken) := by
  obtain ⟨hfree, ⟨-, h⟩ | ⟨hbase, k, hk, -, h, hleast⟩⟩ := ImportTable.freeName_spec base taken
  · exact ⟨hfree, .inl h⟩
  · exact ⟨hfree, .inr ⟨hbase, k, hk, h, hleast⟩⟩

namespace Program

variable {reserved : Names} {l l' : TypeExpr} {path : String} {stubs : List Method}
  {ms : List (MethodGroup × Method)} {table : ImportTable} {n : String}

/-- The references of methods, each with the scope that it is written in. -/
def sites (ms : List (MethodGroup × Method)) : List (Scope × TypeExpr) :=
  ms.flatMap fun m => m.2.sig.references.map (m.1.scope, ·)

/-- How the imports that `t'` has more than `t` came by their names: each is for the package of one
of these references, and it binds the first free of the names that come from the one that the file
of the reference suggests. -/
def NamesAdded (p : Program) (dest : Scope) (refs : List (Scope × TypeExpr))
    (t t' : ImportTable) : Prop :=
  ∀ before e after, t'.entries = t.entries ++ (before ++ e :: after) →
    ∃ r ∈ refs, ∃ name base explicit q,
      p.denotation? r.1 r.2 = some (some e.path, name) ∧ e.path ≠ dest.package.path ∧
      Suggests p r.1.file e.path base explicit ∧ p.boundName? e.name e.path = some q ∧
      FirstFree (dest.package.declaredNames ++ (ImportTable.mk (t.entries ++ before)).boundNames p)
        base q

variable {p : Program} {dest origin : Scope} {t t' t'' : ImportTable}

namespace NamesAdded

variable {refs refs' : List (Scope × TypeExpr)}

theorem refl : NamesAdded p dest refs t t := by
  intro before e after h
  simp at h

/-- Added names stay as they were chosen when more imports come behind. -/
theorem append (h : NamesAdded p dest refs t t') (h' : NamesAdded p dest refs' t' t'')
    (hg : t.Grows p reserved t') (hg' : t'.Grows p reserved t'') :
    NamesAdded p dest (refs ++ refs') t t'' := by
  obtain ⟨adds, heq, -⟩ := hg.exists_append
  obtain ⟨adds', heq', -⟩ := hg'.exists_append
  intro before e after hsplit
  rw [heq', heq, append_assoc] at hsplit
  rcases append_eq_append_iff.1 (append_cancel_left hsplit) with
    ⟨more, hbefore, hadds'⟩ | ⟨more, hadds, hafter⟩
  · obtain ⟨r, hr, hchosen⟩ := h' more e after (by rw [heq', hadds'])
    refine ⟨r, mem_append_right _ hr, ?_⟩
    rwa [heq, append_assoc, ← hbefore] at hchosen
  · cases more with
    | nil =>
      obtain ⟨r, hr, hchosen⟩ := h' [] e after (by rw [heq', hafter]; rfl)
      refine ⟨r, mem_append_right _ hr, ?_⟩
      rw [append_nil] at hadds
      rwa [heq, append_nil, hadds] at hchosen
    | cons x more =>
      obtain ⟨rfl, -⟩ := List.cons.inj hafter
      obtain ⟨r, hr, hchosen⟩ := h before e more (by rw [heq, hadds])
      exact ⟨r, mem_append_left _ hr, hchosen⟩

end NamesAdded

/-- Writing a reference names what it adds. -/
theorem Writes.names {name : String} (hden : p.denotation? origin l = some (some path, name))
    (h : Writes p dest origin.file t path name l' t') : NamesAdded p dest [(origin, l)] t t' := by
  cases h with
  | own | named | dot => exact .refl
  | @imported preferred explicit hpath hnone hsuggests =>
    obtain ⟨written, hentries, hbound, -⟩ :=
      ImportTable.bind_spec dest.package.declaredNames hnone hsuggests.preferred
    intro before e after hsplit
    rw [hentries] at hsplit
    rcases append_eq_cons_iff.1 (append_cancel_left hsplit).symm with
      ⟨rfl, hone⟩ | ⟨more, -, hnil⟩
    · obtain ⟨rfl, -⟩ := List.cons.inj hone
      refine ⟨_, mem_singleton.2 rfl, name, preferred, explicit, _, hden, hpath, hsuggests,
        hbound, ?_⟩
      rw [append_nil]
      exact firstFree_freeName _ preferred
    · simp at hnil

theorem names_requalifyReference (hl : l.isReference = true)
    (h : (p.requalifyReference dest origin l).run t = (.ok l', t')) :
    NamesAdded p dest [(origin, l)] t t' := by
  rcases hden : p.denotation? origin l with _ | ⟨_ | path, name⟩
  · rcases run_requalifyReference_unknown dest t hl hden with hrun | ⟨e, hrun⟩
    · obtain ⟨-, rfl⟩ := Prod.mk.inj (hrun.symm.trans h)
      exact .refl
    · cases (Prod.mk.inj (hrun.symm.trans h)).1
  · obtain ⟨-, rfl⟩ := Prod.mk.inj ((run_requalifyReference_predeclared dest t hden).2.symm.trans h)
    exact .refl
  · obtain ⟨l₁, t₁, hrun, hw⟩ := run_requalifyReference_declared dest t hden
    obtain ⟨-, rfl⟩ := Prod.mk.inj (hrun.symm.trans h)
    exact hw.names hden

theorem names_requalifyReferences {refs refs' : List TypeExpr}
    (hrefs : ∀ l ∈ refs, l.isReference = true)
    (h : (refs.mapM (p.requalifyReference dest origin)).run t = (.ok refs', t')) :
    NamesAdded p dest (refs.map (origin, ·)) t t' := by
  induction refs generalizing t refs' with
  | nil =>
    obtain ⟨-, rfl⟩ := Prod.mk.inj h
    exact .refl
  | cons l refs ih =>
    have hl := hrefs l mem_cons_self
    have htail : ∀ l ∈ refs, l.isReference = true := fun l hl => hrefs l (mem_cons_of_mem _ hl)
    obtain ⟨r₁, t₁, hrun₁, hg₁, -, -⟩ := run_requalifyReference (p := p) dest origin hl t
    obtain ⟨r₂, t₂, hrun₂, hg₂, -, -⟩ := run_requalifyReferences p dest origin refs htail t₁
    rw [mapM_cons, run_bind_exceptState, hrun₁] at h
    cases r₁ with
    | error e => cases h
    | ok l' =>
      simp only [run_bind_exceptState, hrun₂] at h
      cases r₂ with
      | error e => cases h
      | ok rest =>
        obtain ⟨-, rfl⟩ := Prod.mk.inj h
        exact (names_requalifyReference hl hrun₁).append (ih htail hrun₂) hg₁ hg₂

/-- A call that succeeds names what it adds. -/
theorem names_requalify {sig sig' : Signature}
    (h : (p.requalify dest origin sig).run t = (.ok sig', t')) :
    NamesAdded p dest (sig.references.map (origin, ·)) t t' := by
  have hsim := sig.rebuilds_transformM (onReferences_requalifyNode p dest origin)
  rw [requalify, run_bind_exceptState] at h
  rcases hsim.run_cases t with ⟨sig₁, t₁, htree, hrefs, -⟩ | ⟨e, t₁, htree, -⟩
  · rw [htree] at h
    have hget : (get : Importing ImportTable).run t₁ = (.ok t₁, t₁) := rfl
    simp only [run_bind_exceptState, hget] at h
    obtain rfl : t₁ = t' := by
      cases hunbound : p.unboundQualifier? t₁ sig₁ with
      | none => rw [hunbound] at h; exact (Prod.mk.inj h).2
      | some q => rw [hunbound] at h; cases (Prod.mk.inj h).1
    exact names_requalifyReferences (fun l hl => isReference_of_mem_references hl) hrefs
  · rw [htree] at h
    cases (Prod.mk.inj h).1

/-! ## Stubs for several methods -/

namespace Stubbed

variable {ms : List (MethodGroup × Method)} {stubs : List Method}

theorem grows (h : Stubbed p dest t ms stubs t') : t.Grows p dest.package.declaredNames t' := by
  induction h with
  | nil => exact .refl
  | @cons t t₁ t₂ m ms sig stubs hsig hrest ih =>
    have hg := grows_requalify p dest m.1.scope m.2.sig t
    rw [hsig] at hg
    exact hg.trans ih

theorem names (h : Stubbed p dest t ms stubs t') : NamesAdded p dest (sites ms) t t' := by
  induction h with
  | nil => exact .refl
  | @cons t t₁ t₂ m ms sig stubs hsig hrest ih =>
    have hg := grows_requalify p dest m.1.scope m.2.sig t
    rw [hsig] at hg
    exact (names_requalify hsig).append ih hg hrest.grows

/-- Every reference of a method came to its place in the stub. -/
theorem became (h : Stubbed p dest t ms stubs t') :
    List.Forall₂ (fun m stub => List.Forall₂ (Became p dest m.1.scope t') m.2.sig.references
      stub.sig.references) ms stubs := by
  induction h with
  | nil => exact .nil
  | @cons t t₁ t₂ m ms sig stubs hsig hrest ih =>
    obtain ⟨r, t', hrun, -, -, hok⟩ := run_requalify p dest m.1.scope m.2.sig t
    obtain ⟨rfl, rfl⟩ := Prod.mk.inj (hrun.symm.trans hsig)
    refine .cons ?_ ih
    exact (hok sig rfl).2.1.imp fun l l' hl => hl.mono hrest.grows

end Stubbed

/-! ## Bare names -/

/-- The bare name that a reference written in `origin` has in the destination, if it has one there: a
type of the destination's own package, or of one that it imports with a dot, and any bare name that
stands for no declared type. -/
def bareName? (p : Program) (dest origin : Scope) (l : TypeExpr) : Option String :=
  match p.denotation? origin l, l with
  | some (some path, name), _ =>
    if path = dest.package.path ∨ (ImportTable.ofFile dest.file.source).binding? p path = some .dot
    then some name else none
  | _, .name name => some name
  | _, _ => none

/-- A reference comes to be bare under this name and no other. -/
theorem Became.bare_iff (h : Became p dest origin t l l')
    (hg : (ImportTable.ofFile dest.file.source).Grows p reserved t) :
    l' = .name n ↔ p.bareName? dest origin l = some n := by
  rcases hden : p.denotation? origin l with _ | ⟨_ | path, name⟩
  · rw [Became, hden] at h
    subst h
    cases l' <;> simp [bareName?, hden]
  · rw [Became, hden] at h
    obtain rfl := (run_requalifyReference_predeclared dest t hden).1
    subst h
    simp [bareName?, hden]
  · rw [Became, hden] at h
    simp only [bareName?, hden]
    cases h with
    | own hown => simp [hown]
    | dot hpath hdot => simp [hg.binding?_dot hdot]
    | named hpath hq =>
      have hdot : (ImportTable.ofFile dest.file.source).binding? p path ≠ some .dot := by
        intro hdot
        cases hq.symm.trans (hg.binding?_eq hdot)
      simp [hpath, hdot]

/-- The bare names of stubs are those of the references that are written bare. -/
theorem Stubbed.exists_bare_iff (h : Stubbed p dest (.ofFile dest.file.source) ms stubs t) :
    (∃ stub ∈ stubs, .name n ∈ stub.sig.references) ↔
      ∃ r ∈ sites ms, p.bareName? dest r.1 r.2 = some n := by
  constructor
  · rintro ⟨stub, hstub, hn⟩
    obtain ⟨m, hm, hrefs⟩ := exists_related_of_mem h.became hstub
    obtain ⟨l, hl, hbecame⟩ := exists_related_of_mem hrefs hn
    refine ⟨(m.1.scope, l), ?_, (hbecame.bare_iff h.grows).1 rfl⟩
    exact mem_flatMap.2 ⟨m, hm, mem_map.2 ⟨l, hl, rfl⟩⟩
  · rintro ⟨r, hr, hbare⟩
    obtain ⟨m, hm, hr⟩ := mem_flatMap.1 hr
    obtain ⟨l, hl, rfl⟩ := mem_map.1 hr
    obtain ⟨stub, hstub, hrefs⟩ := exists_related_of_mem h.became.flip hm
    obtain ⟨l', hl', (hbecame : Became p dest m.1.scope t l l')⟩ :=
      exists_related_of_mem hrefs.flip hl
    have hname := (hbecame.bare_iff h.grows).2 hbare
    exact ⟨stub, hstub, hname ▸ hl'⟩

/-! ## Names that stay apart -/

/-- Nothing that the stubs bring along meets a name that is in scope where they stand. -/
structure Hygienic (p : Program) (dest : Declared) (stubs : List Method) (table : ImportTable) :
    Prop where
  /-- No import that was added has the name of a type, a function, a variable or a constant that a
  file of the package declares. -/
  apart : ∀ e ∈ table.added, ∀ q, p.boundName? e.name e.path = some q →
    ∀ file ∈ dest.package.files, q ∉ file.declaredNames ∧ q ∉ file.valueNames
  /-- No import that was added has the name of a type parameter. -/
  params : ∀ e ∈ table.added, ∀ q, p.boundName? e.name e.path = some q →
    q ∉ dest.spec.typeParamNames
  /-- No bare name that stands for a type of a package or a predeclared one is that of a type
  parameter. -/
  uncaptured : ∀ stub ∈ stubs, ∀ n, .name n ∈ stub.sig.references →
    p.resolveName dest.scope n ≠ .unknown → n ∉ dest.spec.typeParamNames

/-- A name that an import of the package at `path` may get: one that the file suggests, or such a
one with a number. -/
def Candidate (p : Program) (file : PackageFile) (path q : String) : Prop :=
  ∃ base explicit, Suggests p file path base explicit ∧
    (q = base ∨ ∃ k, 2 ≤ k ∧ q = base ++ toString k)

/-- What the search for free names leaves out is no matter for these methods. -/
structure KeepsClear (p : Program) (dest : Declared) (ms : List (MethodGroup × Method)) : Prop where
  /-- No import that a method needs may get the name of a variable, a constant or a type
  parameter. -/
  imports : ∀ r ∈ sites ms, ∀ path name, p.denotation? r.1 r.2 = some (some path, name) →
    path ≠ dest.package.path → (ImportTable.ofFile dest.file.source).binding? p path = none →
    ∀ q, Candidate p r.1.file path q →
      (∀ file ∈ dest.package.files, q ∉ file.valueNames) ∧ q ∉ dest.spec.typeParamNames
  /-- No reference of a method that is written bare has the name of a type parameter. -/
  bare : ∀ r ∈ sites ms, ∀ n, p.bareName? dest.scope r.1 r.2 = some n →
    p.resolveName dest.scope n ≠ .unknown → n ∉ dest.spec.typeParamNames

theorem candidate_of_firstFree {taken : List String} {base q : String} {file : PackageFile}
    {explicit : Bool} (h : FirstFree taken base q)
    (hsuggests : Suggests p file path base explicit) : Candidate p file path q := by
  rcases h with ⟨-, h | ⟨-, k, hk, h, -⟩⟩
  · exact ⟨base, explicit, hsuggests, .inl h⟩
  · exact ⟨base, explicit, hsuggests, .inr ⟨k, hk, h⟩⟩

theorem added_eq {source : SourceFile} {adds : List ImportEntry}
    (hg : (ImportTable.ofFile source).Grows p reserved table)
    (heq : table.entries = (ImportTable.ofFile source).entries ++ adds) : table.added = adds := by
  obtain ⟨adds', heq', hadds⟩ := hg.exists_append
  obtain rfl := append_cancel_left (heq.symm.trans heq')
  have hfile : (ImportTable.ofFile source).entries.filter (·.added) = [] := by
    simp [ImportTable.ofFile]
  rw [ImportTable.added, heq, filter_append, hfile, nil_append, filter_eq_self]
  exact hadds

/-- A path without a binding among some imports has none among the first of them. -/
theorem binding?_eq_none_of_append {before : List ImportEntry}
    (h : (ImportTable.mk (t.entries ++ before)).binding? p path = none) :
    t.binding? p path = none := by
  cases hb : t.binding? p path with
  | none => rfl
  | some b =>
    cases b with
    | named q =>
      obtain ⟨e, he, rfl, hq⟩ := ImportTable.exists_of_binding?_named hb
      rw [(ImportTable.of_binding?_eq_none h e (mem_append_left _ he) rfl).1] at hq
      cases hq
    | dot =>
      obtain ⟨e, he, rfl, hdot⟩ := ImportTable.exists_of_binding?_dot hb
      exact absurd hdot (ImportTable.of_binding?_eq_none h e (mem_append_left _ he) rfl).2

/-- Where names are chosen clear of what the search leaves out, nothing meets. -/
theorem Stubbed.hygienic {dest : Declared}
    (h : Stubbed p dest.scope (.ofFile dest.file.source) ms stubs table)
    (hclear : KeepsClear p dest ms) : Hygienic p dest stubs table := by
  obtain ⟨adds, heq, -⟩ := h.grows.exists_append
  have hchosen : ∀ e ∈ table.added, ∀ q, p.boundName? e.name e.path = some q →
      (∀ file ∈ dest.package.files, q ∉ file.declaredNames ∧ q ∉ file.valueNames) ∧
        q ∉ dest.spec.typeParamNames := by
    rw [added_eq h.grows heq]
    intro e he q hq
    obtain ⟨before, after, rfl⟩ := append_of_mem he
    obtain ⟨r, hr, name, base, explicit, q', hden, hpath, hsuggests, hq', hfree⟩ :=
      h.names before e after heq
    obtain rfl := Option.some.inj (hq.symm.trans hq')
    have hunbound := binding?_eq_none_of_append (h.grows.adds_of_split heq).unbound
    obtain ⟨hvalues, hparams⟩ :=
      hclear.imports r hr e.path name hden hpath hunbound q (candidate_of_firstFree hfree hsuggests)
    refine ⟨fun file hfile => ⟨fun hmem => ?_, hvalues file hfile⟩, hparams⟩
    exact hfree.1 (mem_append_left _ (Package.mem_declaredNames hfile hmem))
  refine ⟨fun e he q hq => (hchosen e he q hq).1, fun e he q hq => (hchosen e he q hq).2, ?_⟩
  intro stub hstub n hn hresolves
  obtain ⟨r, hr, hbare⟩ := h.exists_bare_iff.1 ⟨stub, hstub, hn⟩
  exact hclear.bare r hr n hbare hresolves

section Outcome

variable {set : MethodSet} {interface concrete : TypeRef} {decl dest : Declared}
  {expansion : Expansion} {imp : Implementation} (hdecl : p.lookup? interface = some decl)
  (hdest : p.lookup? concrete = some dest) (hexpand : p.expand decl [] = .ok expansion)
  (hset : p.methodSet dest = .ok set) (h : p.implement interface concrete = .ok (some imp))

include hdecl hdest hexpand hset h

/-- An implementation is made of stubs for the methods that the type lacks. -/
theorem exists_stubs_of_implement :
    ∃ stubs table, Stubbed p dest.scope (.ofFile dest.file.source)
        (absent set (MethodGroup.flatten expansion.groups)) stubs table ∧
      dest.file.withStubs dest.spec interface.name stubs table = .ok imp := by
  have hfits : ∀ m ∈ MethodGroup.flatten expansion.groups, ¬ p.Mismatches set m := by
    cases hmissing : p.missingAmong set (MethodGroup.flatten expansion.groups) with
    | ok missing => exact not_mismatches_of_missingAmong hmissing
    | error e => cases (implement_of_error hdecl hdest hexpand hset hmissing).symm.trans h
  rcases implement_of_fits hdecl hdest hexpand hset hfits with
    ⟨-, hnone⟩ | ⟨-, ⟨q, file, herror⟩ | ⟨stubs, table, hstubbed, hstubs⟩⟩
  · cases hnone.symm.trans h
  · cases herror.symm.trans h
  · refine ⟨stubs, table, hstubbed, ?_⟩
    rw [h] at hstubs
    cases hwith : dest.file.withStubs dest.spec interface.name stubs table with
    | error e => rw [hwith] at hstubs; cases hstubs
    | ok imp' =>
      rw [hwith] at hstubs
      cases hstubs
      rfl

/-- What an implementation brings along.  Every import that is added is for a package that a missing
method needs; it is bound to the first of the names from the one that the file of the method suggests
that is neither that of a type or a function of the package, in whatever file, nor bound already.
The bare names in the stubs are those of the references that are written bare.  So nothing meets a
name that is in scope where the stubs stand, provided that no variable, constant or type parameter
has a name that such an import may get, and no type that is written bare that of a type parameter. -/
theorem hygienic_implement :
    ∃ stubs table, Stubbed p dest.scope (.ofFile dest.file.source)
        (absent set (MethodGroup.flatten expansion.groups)) stubs table ∧
      dest.file.withStubs dest.spec interface.name stubs table = .ok imp ∧
      imp.addedImports = ImportTable.infos table.added ∧
      NamesAdded p dest.scope (sites (absent set (MethodGroup.flatten expansion.groups)))
        (.ofFile dest.file.source) table ∧
      (∀ e ∈ table.added, ∃ q, p.boundName? e.name e.path = some q ∧
        ∀ file ∈ dest.package.files, q ∉ file.declaredNames) ∧
      (∀ n, (∃ stub ∈ stubs, .name n ∈ stub.sig.references) ↔
        ∃ r ∈ sites (absent set (MethodGroup.flatten expansion.groups)),
          p.bareName? dest.scope r.1 r.2 = some n) ∧
      (KeepsClear p dest (absent set (MethodGroup.flatten expansion.groups)) →
        Hygienic p dest stubs table) := by
  obtain ⟨stubs, table, hstubbed, hwith⟩ := exists_stubs_of_implement hdecl hdest hexpand hset h
  refine ⟨stubs, table, hstubbed, hwith, addedImports_of_withStubs hwith, hstubbed.names, ?_,
    fun n => hstubbed.exists_bare_iff, hstubbed.hygienic⟩
  obtain ⟨adds, heq, -⟩ := hstubbed.grows.exists_append
  rw [added_eq hstubbed.grows heq]
  intro e he
  obtain ⟨q, hq, hfree⟩ := hstubbed.grows.exists_boundName? heq he
  exact ⟨q, hq, fun file hfile hmem => hfree (Package.mem_declaredNames hfile hmem)⟩

end Outcome

/-! ### A name that is taken, and names that are not seen -/

/-- The stub for a single method is what requalifying its signature gives. -/
theorem Stubbed.eq_of_run {m : MethodGroup × Method} {sig : Signature}
    (h : Stubbed p dest t [m] stubs t'')
    (hrun : (p.requalify dest m.1.scope m.2.sig).run t = (.ok sig, t')) :
    stubs = [⟨m.2.name, sig⟩] ∧ t'' = t' := by
  cases h with
  | cons hsig hrest =>
    cases hrest
    obtain ⟨hsame, rfl⟩ := Prod.mk.inj (hsig.symm.trans hrun)
    exact ⟨by rw [Except.ok.inj hsame], rfl⟩

theorem exists_of_addedImports {r : Except StubError (Option Implementation)}
    {infos : List ImportInfo} (h : r.toOption.join.map (·.addedImports) = some infos) :
    ∃ imp, r = .ok (some imp) ∧ imp.addedImports = infos := by
  rcases r with e | _ | imp
  · cases h
  · cases h
  · exact ⟨imp, rfl, Option.some.inj h⟩

/-- A generic type to implement an interface on. -/
def takenSpec : TypeSpec :=
  ⟨"T", ⟨15, 31⟩, [⟨["K"], .name "any"⟩], false, .struct []⟩

/-- The file of this type. -/
def takenFile : PackageFile :=
  ⟨"m/a/a.go", "package a\ntype T[K any]struct\x7b\x7d", "a", ⟨0, 9⟩, [],
    [.types ⟨10, 31⟩ [takenSpec]]⟩

/-- Another file of its package, with a function that has the name of an import. -/
def takingFile : PackageFile :=
  ⟨"m/a/c.go", "package a;func io()\x7b\x7d;var x,y int", "a", ⟨0, 9⟩, [],
    [.func ⟨none, "io", [], ⟨[], []⟩, some ⟨19, 21⟩, ⟨10, 21⟩⟩, .value ⟨22, 33⟩]⟩

/-- A method that needs the import. -/
def readerMethod : Method :=
  ⟨"M", ⟨[.unnamed (.qualified "io" "Reader"), .unnamed (.name "error")], []⟩⟩

/-- An interface with this method. -/
def readerSpec : TypeSpec :=
  ⟨"I", ⟨29, 60⟩, [], false, .interface [.method "M" readerMethod.sig]⟩

/-- The file of the interface. -/
def readerFile : PackageFile :=
  ⟨"m/b/b.go", "package b;import io\x22io\x22;type I interface\x7bM(io.Reader,error)\x7d", "b",
    ⟨0, 9⟩, [⟨⟨10, 23⟩, none, none, [⟨some "io", "io", ⟨17, 23⟩⟩]⟩], [.types ⟨24, 60⟩ [readerSpec]]⟩

/-- The package of the type. -/
def takenPackage : Package :=
  ⟨"m/a", "a", [takenFile, takingFile]⟩

/-- The package of the interface. -/
def readerPackage : Package :=
  ⟨"m/b", "b", [readerFile]⟩

/-- The program of these two packages. -/
def takenProgram : Program :=
  ⟨[takenPackage, readerPackage], ["io"]⟩

/-- The method with where it comes from. -/
def readerGroup : MethodGroup :=
  ⟨"m/b.I", ⟨readerPackage, readerFile⟩, [readerMethod]⟩

/-- The interface in this program. -/
def readerDecl : Declared :=
  ⟨readerPackage, readerFile, readerSpec⟩

/-- The destination in this program. -/
def takenDest : Declared :=
  ⟨takenPackage, takenFile, takenSpec⟩

/-- Neither variables nor type parameters have a name that the import may get. -/
theorem clear_taken : KeepsClear takenProgram takenDest [(readerGroup, readerMethod)] := by
  have hvalues : ∀ file ∈ takenPackage.files, ∀ n ∈ file.valueNames, n = "x" ∨ n = "y" := by
    decide +kernel
  have hdenotes : ∀ r ∈ sites [(readerGroup, readerMethod)],
      takenProgram.denotation? r.1 r.2 = some (some "io", "Reader") ∨
        takenProgram.denotation? r.1 r.2 = some (none, "error") := by decide +kernel
  have hbare : ∀ r ∈ sites [(readerGroup, readerMethod)],
      takenProgram.bareName? takenDest.scope r.1 r.2 = none ∨
        takenProgram.bareName? takenDest.scope r.1 r.2 = some "error" := by decide +kernel
  have hfile : ∀ r ∈ sites [(readerGroup, readerMethod)], r.1.file = readerFile := by decide +kernel
  have halias : readerFile.aliasOf? "io" = some "io" := by decide +kernel
  have hname : takenProgram.packageName "io" = "io" := by decide +kernel
  have hparams : takenDest.spec.typeParamNames = ["K"] := by decide
  constructor
  · intro r hr path name hden _ _ q hq
    obtain rfl : path = "io" := by
      rcases hdenotes r hr with h | h
      · exact (Option.some.inj (Prod.mk.inj (Option.some.inj (h.symm.trans hden))).1).symm
      · cases h.symm.trans hden
    obtain ⟨base, explicit, hsuggests, hq⟩ := hq
    rw [hfile r hr] at hsuggests
    obtain rfl : base = "io" := by
      cases hsuggests with
      | given h => exact Option.some.inj (h.symm.trans halias)
      | own => exact hname
    -- a name of two letters or more is none of the names of one letter
    have hne : ∀ s c, s.toList = [c] → c.isDigit = false → q ≠ s := by
      intro s c hs hc
      rcases hq with rfl | ⟨k, -, rfl⟩
      · rintro rfl
        cases hs
      · exact append_toString_ne_singleton "io" k hs hc
    refine ⟨fun file hf hmem => ?_, ?_⟩
    · rcases hvalues file hf q hmem with h | h
      · exact hne "x" 'x' rfl rfl h
      · exact hne "y" 'y' rfl rfl h
    · rw [hparams, mem_singleton]
      exact hne "K" 'K' rfl rfl
  · intro r hr n hn _
    rcases hbare r hr with h | h
    · cases h.symm.trans hn
    · obtain rfl := Option.some.inj (h.symm.trans hn)
      decide

/-- The import gets the name `io2`, for `io` is that of a function in another file of the package. -/
theorem hygienic_implement_numbered :
    ∃ imp stubs table,
      takenProgram.implement ⟨"m/b", "I"⟩ ⟨"m/a", "T"⟩ = .ok (some imp) ∧
      imp.addedImports = [⟨"io2", "io"⟩] ∧
      takenFile.withStubs takenSpec "I" stubs table = .ok imp ∧
      KeepsClear takenProgram takenDest [(readerGroup, readerMethod)] ∧
      Hygienic takenProgram takenDest stubs table := by
  obtain ⟨imp, himp, hadded⟩ := exists_of_addedImports
    (show (takenProgram.implement ⟨"m/b", "I"⟩ ⟨"m/a", "T"⟩).toOption.join.map (·.addedImports)
      = some [⟨"io2", "io"⟩] by decide +kernel)
  obtain ⟨stubs, table, -, hwith, -, -, -, -, hhygienic⟩ := hygienic_implement
    (show takenProgram.lookup? ⟨"m/b", "I"⟩ = some readerDecl by decide +kernel)
    (show takenProgram.lookup? ⟨"m/a", "T"⟩ = some takenDest by decide +kernel)
    (show takenProgram.expand readerDecl [] = .ok ⟨[readerGroup], ["M"]⟩ by decide +kernel)
    (show takenProgram.methodSet takenDest = .ok ⟨[]⟩ by decide +kernel) himp
  exact ⟨imp, stubs, table, himp, hadded, hwith, clear_taken, hhygienic clear_taken⟩

/-- A type whose parameters have the names of an import and of another type. -/
def unseenSpec : TypeSpec :=
  ⟨"T", ⟨32, 51⟩, [⟨["io", "K"], .name "any"⟩], false, .struct []⟩

/-- The file of this type, with a variable that has the name of the import too. -/
def unseenFile : PackageFile :=
  ⟨"m/a/a.go", "package a\nvar io int;type(K int;T[io,K any]struct\x7b\x7d)", "a", ⟨0, 9⟩, [],
    [.value ⟨10, 20⟩, .types ⟨21, 52⟩ [⟨"K", ⟨26, 31⟩, [], false, .name "int"⟩, unseenSpec]]⟩

/-- A method that needs the import and the other type. -/
def unseenMethod : Method :=
  ⟨"M", ⟨[.unnamed (.qualified "io" "Reader"), .unnamed (.qualified "a" "K")], []⟩⟩

/-- An interface with this method. -/
def unseenInterface : TypeSpec :=
  ⟨"I", ⟨34, 63⟩, [], false, .interface [.method "M" unseenMethod.sig]⟩

/-- The file of the interface. -/
def unseenOrigin : PackageFile :=
  ⟨"m/b/b.go", "package b;import(\x22io\x22;\x22m/a\x22);type I interface\x7bM(io.Reader,a.K)\x7d",
    "b", ⟨0, 9⟩, [⟨⟨10, 28⟩, some ⟨16, 17⟩, some ⟨27, 28⟩,
      [⟨none, "io", ⟨17, 21⟩⟩, ⟨none, "m/a", ⟨22, 27⟩⟩]⟩], [.types ⟨29, 63⟩ [unseenInterface]]⟩

/-- The program of these two files. -/
def unseenProgram : Program :=
  ⟨[⟨"m/a", "a", [unseenFile]⟩, ⟨"m/b", "b", [unseenOrigin]⟩], ["io"]⟩

/-- The destination in this program. -/
def unseenDest : Declared :=
  ⟨⟨"m/a", "a", [unseenFile]⟩, unseenFile, unseenSpec⟩

/-- The interface in this program. -/
def unseenDecl : Declared :=
  ⟨⟨"m/b", "b", [unseenOrigin]⟩, unseenOrigin, unseenInterface⟩

/-- The method with where it comes from. -/
def unseenGroup : MethodGroup :=
  ⟨"m/b.I", unseenDecl.scope, [unseenMethod]⟩

/-- The import gets the name of a variable and of a type parameter, and the other type, which the
stub writes bare, that of a type parameter too. -/
theorem not_hygienic_implement :
    ∃ imp stubs table,
      SourceFile.parse unseenFile.text = .ok unseenFile.source ∧
      SourceFile.parse unseenOrigin.text = .ok unseenOrigin.source ∧
      unseenProgram.implement ⟨"m/b", "I"⟩ ⟨"m/a", "T"⟩ = .ok (some imp) ∧
      unseenFile.withStubs unseenSpec "I" stubs table = .ok imp ∧
      (∃ e ∈ table.added, unseenProgram.boundName? e.name e.path = some "io" ∧
        "io" ∈ unseenFile.valueNames ∧ "io" ∈ unseenSpec.typeParamNames) ∧
      (∃ stub ∈ stubs, .name "K" ∈ stub.sig.references ∧
        unseenProgram.resolveName unseenDest.scope "K" ≠ .unknown ∧
        "K" ∈ unseenSpec.typeParamNames) ∧
      ¬ Hygienic unseenProgram unseenDest stubs table := by
  obtain ⟨imp, himp, -⟩ := exists_of_addedImports
    (show (unseenProgram.implement ⟨"m/b", "I"⟩ ⟨"m/a", "T"⟩).toOption.join.map (·.addedImports)
      = some [⟨"", "io"⟩] by decide +kernel)
  obtain ⟨stubs, table, hstubbed, hwith⟩ := exists_stubs_of_implement
    (show unseenProgram.lookup? ⟨"m/b", "I"⟩ = some unseenDecl by decide +kernel)
    (show unseenProgram.lookup? ⟨"m/a", "T"⟩ = some unseenDest by decide +kernel)
    (show unseenProgram.expand unseenDecl [] = .ok ⟨[unseenGroup], ["M"]⟩ by decide +kernel)
    (show unseenProgram.methodSet unseenDest = .ok ⟨[]⟩ by decide +kernel) himp
  have hrun : (unseenProgram.requalify unseenDest.scope unseenGroup.scope unseenMethod.sig).run
      (.ofFile unseenFile.source) = (.ok ⟨[.unnamed (.qualified "io" "Reader"), .unnamed (.name "K")],
        []⟩, ⟨[⟨none, "io", true⟩]⟩) := Prod.ext (by decide +kernel) (by decide +kernel)
  obtain ⟨rfl, rfl⟩ := hstubbed.eq_of_run hrun
  have hio : "io" ∈ unseenFile.valueNames := by decide +kernel
  have hbound : unseenProgram.boundName? none "io" = some "io" := by decide +kernel
  refine ⟨imp, _, _, by decide +kernel, by decide +kernel, himp, hwith,
    ⟨_, mem_singleton.2 rfl, hbound, hio, by decide⟩,
    ⟨_, mem_singleton.2 rfl, by decide +kernel, by decide +kernel, by decide⟩, ?_⟩
  intro h
  have hapart := h.apart _ (mem_singleton.2 rfl) "io" hbound unseenFile
    (mem_singleton.2 rfl)
  exact hapart.2 hio

end Program

end Stubwright
