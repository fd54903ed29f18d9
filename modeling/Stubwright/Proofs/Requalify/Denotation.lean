import Stubwright.Proofs.Requalify.Imports

/-!
# References keep what they stand for

A signature that is requalified says in the destination what it said in its own file.

* `denotation?_requalify`: a requalified signature says what it said before.
-/

namespace Stubwright

open Option

/-! ## The destination with the imports of a table -/

/-- The imports of a table as one import declaration. -/
def ImportTable.toDecl (t : ImportTable) : ImportDecl :=
  ⟨.emptyAt 0, none, none, t.entries.map fun e => ⟨e.name, e.path, .emptyAt 0⟩⟩

/-- A scope whose file has the imports of a table in place of its own. -/
def Scope.withImports (s : Scope) (t : ImportTable) : Scope :=
  { s with file.source.imports := [t.toDecl] }

namespace Program

variable {p : Program} {dest origin : Scope} {t : ImportTable} {path name : String} {l : TypeExpr}
  {reserved : Names} {decl : Declared}

theorem qualifierPath?_withImports (s : Scope) (t : ImportTable) (q : String) :
    p.qualifierPath? (s.withImports t).file q = t.boundPath? p q := by
  simp [qualifierPath?, ImportTable.boundPath?, Scope.withImports, SourceFile.importSpecs,
    ImportTable.toDecl, List.find?_map, Function.comp_def]

theorem mem_dotImports_withImports {s : Scope} {t : ImportTable} :
    path ∈ (s.withImports t).file.dotImports ↔
      ∃ e ∈ t.entries, e.path = path ∧ e.name = some "." := by
  simp [PackageFile.dotImports, Scope.withImports, SourceFile.importSpecs, ImportTable.toDecl,
    and_comm, and_left_comm]

/-- The dots of a file are those of its table. -/
theorem mem_dotImports_iff {file : PackageFile} :
    path ∈ file.dotImports ↔
      ∃ e ∈ (ImportTable.ofFile file.source).entries, e.path = path ∧ e.name = some "." := by
  simp [PackageFile.dotImports, ImportTable.ofFile, and_assoc, and_comm]

/-! ## What is asked of a signature -/

/-- A scope belongs to a program: its package is the one at its import path. -/
def Holds (p : Program) (s : Scope) : Prop :=
  p.package? s.package.path = some s.package

/-- A reference stands for a type that exists or for a predeclared one. -/
def Resolves (p : Program) (s : Scope) : TypeExpr → Prop
  | .name name => p.resolveName s name ≠ .unknown
  | .qualified package name => (p.resolveQualified? s package name).isSome
  | _ => False

/-- References that are written bare in a destination although they stand for no type of its
package: those to predeclared types and to types of a package that the file sees through a dot
only. -/
def SeenBare (p : Program) (dest : Scope) : Option String → Prop
  | none => True
  | some path => path ≠ dest.package.path ∧
      (ImportTable.ofFile dest.file.source).binding? p path = some .dot

/-- Nothing in a destination comes before what `name` stands for at `home`: neither its package nor
another package that the file sees through a dot declares the name. -/
def Uncaptured (p : Program) (dest : Scope) (home : Option String) (name : String) : Prop :=
  dest.package.lookup? name = none ∧ ∀ path ∈ dest.file.dotImports, home ≠ some path →
    (p.package? path).bind (·.lookup? name) = none

instance (p : Program) (s : Scope) : Decidable (p.Holds s) :=
  inferInstanceAs (Decidable (p.package? s.package.path = some s.package))

instance (p : Program) (s : Scope) : DecidablePred (p.Resolves s)
  | .name name => inferInstanceAs (Decidable (p.resolveName s name ≠ .unknown))
  | .qualified package name =>
    inferInstanceAs (Decidable ((p.resolveQualified? s package name).isSome))
  | .generic .. | .pointer _ | .slice _ | .array .. | .map .. | .chan .. | .func _ | .interface _
  | .struct _ | .paren _ | .ellipsis _ | .union _ => isFalse id

instance (p : Program) (dest : Scope) : DecidablePred (p.SeenBare dest)
  | none => isTrue trivial
  | some path => inferInstanceAs (Decidable (path ≠ dest.package.path ∧
      (ImportTable.ofFile dest.file.source).binding? p path = some .dot))

instance (p : Program) (dest : Scope) (home : Option String) (name : String) :
    Decidable (p.Uncaptured dest home name) :=
  inferInstanceAs (Decidable (dest.package.lookup? name = none ∧
    ∀ path ∈ dest.file.dotImports, home ≠ some path →
      (p.package? path).bind (·.lookup? name) = none))

/-- A reference that resolves stands for something. -/
theorem Resolves.isSome_denotation? (h : p.Resolves origin l) :
    (p.denotation? origin l).isSome := by
  cases l with
  | name n =>
    rw [Resolves] at h
    rw [denotation?]
    cases hr : p.resolveName origin n with
    | unknown => exact absurd hr h
    | _ => rfl
  | qualified q n =>
    obtain ⟨decl, hdecl⟩ := isSome_iff_exists.1 h
    obtain ⟨pkg, hpkg, -⟩ := bind_eq_some_iff.1 hdecl
    obtain ⟨path, hpath, -⟩ := bind_eq_some_iff.1 hpkg
    rw [denotation?, hpath]
    rfl
  | _ => cases h

/-- The type that a reference stands for exists, if the reference resolves. -/
theorem Resolves.exists_lookup? (h : p.Resolves origin l) (horigin : p.Holds origin)
    (hden : p.denotation? origin l = some (some path, name)) :
    ∃ pkg decl, p.package? path = some pkg ∧ pkg.lookup? name = some decl := by
  cases l with
  | name n =>
    simp only [denotation?] at hden
    split at hden
    · rename_i decl hdecl
      cases hden
      rw [name_of_resolveName hdecl]
      rcases resolveName_declared hdecl with hlookup | ⟨path, -, pkg, hpkg, hlookup⟩
      · rw [Package.package_of_lookup? hlookup]
        exact ⟨_, decl, horigin, hlookup⟩
      · rw [Package.package_of_lookup? hlookup, path_of_package? hpkg]
        exact ⟨pkg, decl, hpkg, hlookup⟩
    · cases hden
    · cases hden
  | qualified q n =>
    obtain ⟨decl, hdecl⟩ := isSome_iff_exists.1 h
    obtain ⟨pkg, hpkg, hlookup⟩ := bind_eq_some_iff.1 hdecl
    obtain ⟨path', hpath, hpkg⟩ := bind_eq_some_iff.1 hpkg
    rw [denotation?, hpath] at hden
    cases hden
    exact ⟨pkg, decl, hpkg, hlookup⟩
  | _ => cases h

/-! ## What a bare name stands for in the destination -/

/-- A type of the destination's own package is found under its bare name. -/
theorem denotation?_own (h : dest.package.lookup? name = some decl) :
    p.denotation? (dest.withImports t) (.name name) = some (some dest.package.path, name) := by
  have hres : p.resolveName (dest.withImports t) name = .declared decl := by
    simp only [resolveName, Scope.withImports, h]
  rw [denotation?, hres, ← Package.name_of_lookup? h, ← Package.package_of_lookup? h]

/-- A table that grew sees through a dot what the file sees through a dot. -/
theorem mem_dotImports_of_grows
    (hgrows : (ImportTable.ofFile dest.file.source).Grows p reserved t) :
    path ∈ (dest.withImports t).file.dotImports ↔ path ∈ dest.file.dotImports := by
  rw [mem_dotImports_withImports, mem_dotImports_iff, hgrows.exists_dot_iff]

/-- A predeclared type is found under its bare name where nothing captures that. -/
theorem denotation?_predeclared (hgrows : (ImportTable.ofFile dest.file.source).Grows p reserved t)
    (hclear : p.Uncaptured dest none name) (hname : isPredeclared name = true) :
    p.denotation? (dest.withImports t) (.name name) = some (none, name) := by
  have hdots : (dest.withImports t).file.dotImports.findSome?
      (fun path => (p.package? path).bind (·.lookup? name)) = none := by
    rw [List.findSome?_eq_none_iff]
    intro path hpath
    exact hclear.2 path ((mem_dotImports_of_grows hgrows).1 hpath) (by simp)
  have hres : p.resolveName (dest.withImports t) name = .predeclared := by
    rw [resolveName, hdots]
    simp only [Scope.withImports, hclear.1, hname, if_true]
  rw [denotation?, hres]

/-- A type that is seen through a dot is found under its bare name where nothing captures that. -/
theorem denotation?_dot {pkg : Package}
    (hgrows : (ImportTable.ofFile dest.file.source).Grows p reserved t)
    (hclear : p.Uncaptured dest (some path) name) (hpkg : p.package? path = some pkg)
    (hlookup : pkg.lookup? name = some decl) (hdot : t.binding? p path = some .dot) :
    p.denotation? (dest.withImports t) (.name name) = some (some path, name) := by
  have hmem : path ∈ (dest.withImports t).file.dotImports :=
    mem_dotImports_withImports.2 (ImportTable.exists_of_binding?_dot hdot)
  have hfound : (p.package? path).bind (·.lookup? name) = some decl := by simp [hpkg, hlookup]
  have hdots : (dest.withImports t).file.dotImports.findSome?
      (fun path => (p.package? path).bind (·.lookup? name)) = some decl := by
    cases hf : (dest.withImports t).file.dotImports.findSome?
        (fun path => (p.package? path).bind (·.lookup? name)) with
    | none =>
      rw [List.findSome?_eq_none_iff.1 hf path hmem] at hfound
      cases hfound
    | some decl' =>
      -- another package that declares the name would capture it
      obtain ⟨path', hmem', hfound'⟩ := List.exists_of_findSome?_eq_some hf
      by_cases hsame : path = path'
      · rw [← hsame, hfound] at hfound'
        exact hfound'.symm
      · rw [hclear.2 path' ((mem_dotImports_of_grows hgrows).1 hmem')
          fun h => hsame (Option.some.inj h)] at hfound'
        cases hfound'
  have hres : p.resolveName (dest.withImports t) name = .declared decl := by
    rw [resolveName, hdots]
    simp only [Scope.withImports, hclear.1]
  simp only [denotation?, hres]
  rw [Package.package_of_lookup? hlookup, path_of_package? hpkg, Package.name_of_lookup? hlookup]

/-! ## Requalified references -/

theorem isPredeclared_of_resolveName {s : Scope} (h : p.resolveName s name = .predeclared) :
    isPredeclared name = true := by
  unfold resolveName at h
  split at h
  · cases h
  · split at h
    · cases h
    · split at h
      · assumption
      · cases h

theorem isPredeclared_of_denotation? (h : p.denotation? origin l = some (none, name)) :
    l = .name name ∧ isPredeclared name = true := by
  cases l with
  | name n =>
    simp only [denotation?] at h
    split at h
    · cases h
    · rename_i hres
      cases h
      exact ⟨rfl, isPredeclared_of_resolveName hres⟩
    · cases h
  | qualified q n => simp [denotation?] at h
  | _ => cases h

/-- A reference that has come to its place stands for what it stood for. -/
theorem denotation?_of_became {l' : TypeExpr} (hdest : p.Holds dest) (horigin : p.Holds origin)
    (hfile : (ImportTable.ofFile dest.file.source).Unambiguous p)
    (hgrows : (ImportTable.ofFile dest.file.source).Grows p reserved t) (hres : p.Resolves origin l)
    (hclear : ∀ d ∈ p.denotation? origin l, p.SeenBare dest d.1 → p.Uncaptured dest d.1 d.2)
    (h : Became p dest origin t l l') :
    p.denotation? (dest.withImports t) l' = p.denotation? origin l := by
  rcases hden : p.denotation? origin l with _ | ⟨_ | path, name⟩
  · have := hres.isSome_denotation?
    rw [hden] at this
    cases this
  · obtain ⟨rfl, hname⟩ := isPredeclared_of_denotation? hden
    rw [Became, hden] at h
    rw [h]
    exact denotation?_predeclared hgrows (hclear (none, name) hden trivial) hname
  · obtain ⟨pkg, decl, hpkg, hlookup⟩ := hres.exists_lookup? horigin hden
    rw [Became, hden] at h
    cases h with
    | own hpath =>
      subst hpath
      obtain rfl : dest.package = pkg := Option.some.inj (hdest.symm.trans hpkg)
      exact denotation?_own hlookup
    | @named q hpath hq =>
      obtain ⟨e, he, rfl, hbound⟩ := ImportTable.exists_of_binding?_named hq
      have hq : t.boundPath? p q = some e.path := (hgrows.unambiguous hfile).boundPath?_eq he hbound
      rw [denotation?, qualifierPath?_withImports, hq]
      rfl
    | dot hpath hdot =>
      exact denotation?_dot hgrows (hclear (some path, name) hden ⟨hpath, hgrows.binding?_dot hdot⟩)
        hpkg hlookup hdot

/-- A requalified signature says in the destination what it said in its own file.  After any earlier
calls that share the table, a signature whose references resolve, and whose bare names nothing in
the destination captures, is requalified without failure.  It keeps its skeleton: all but the
references.  Each reference stands for the same type as before, where the destination has the
imports of the table; a type of the destination's own package is written bare, and a type of a
package that the file imports by name is written with that name. -/
theorem denotation?_requalify (p : Program) (dest origin : Scope)
    (calls : List (Scope × Signature)) (sig : Signature)
    (hdest : p.Holds dest) (horigin : p.Holds origin)
    (hfile : (ImportTable.ofFile dest.file.source).Unambiguous p)
    (hres : ∀ l ∈ sig.references, p.Resolves origin l)
    (hclear : ∀ l ∈ sig.references, ∀ d ∈ p.denotation? origin l,
      p.SeenBare dest d.1 → p.Uncaptured dest d.1 d.2) :
    ∃ sig' t', (p.requalify dest origin sig).run
        (p.requalifyAll dest calls (.ofFile dest.file.source)) = (.ok sig', t') ∧
      sig'.skeleton = sig.skeleton ∧
      List.Forall₂ (fun l l' =>
        p.denotation? (dest.withImports t') l' = p.denotation? origin l ∧
        (∀ name, p.denotation? origin l = some (some dest.package.path, name) → l' = .name name) ∧
        (∀ path name q, p.denotation? origin l = some (some path, name) →
          path ≠ dest.package.path →
          (ImportTable.ofFile dest.file.source).binding? p path = some (.named q) →
          l' = .qualified q name)) sig.references sig'.references := by
  have hbefore := grows_requalifyAll p dest calls (.ofFile dest.file.source)
  obtain ⟨r, t', hrun, hcall, hsome, hok⟩ := run_requalify p dest origin sig
    (p.requalifyAll dest calls (.ofFile dest.file.source))
  obtain ⟨sig', rfl⟩ := hsome fun l hl => (hres l hl).isSome_denotation?
  obtain ⟨hskeleton, hbecame, -⟩ := hok sig' rfl
  have hgrows := hbefore.trans hcall
  refine ⟨sig', t', hrun, hskeleton, ?_⟩
  have hall := (List.forall₂_and_left sig.references sig'.references).2 ⟨fun l hl => hl, hbecame⟩
  refine hall.imp fun l l' ⟨hl, h⟩ => ⟨?_, ?_, ?_⟩
  · exact denotation?_of_became hdest horigin hfile hgrows (hres l hl) (hclear l hl) h
  · intro name hden
    rw [Became, hden] at h
    cases h with
    | own _ => rfl
    | named hpath _ => exact absurd rfl hpath
    | dot hpath _ => exact absurd rfl hpath
  · intro path name q hden hpath hq
    have hnow : t'.binding? p path = some (.named q) := hgrows.binding?_eq hq
    rw [Became, hden] at h
    cases h with
    | own hown => exact absurd hown hpath
    | named _ hq' =>
      rw [hnow] at hq'
      cases hq'
      rfl
    | dot _ hdot =>
      rw [hnow] at hdot
      cases hdot

open TwoOfOneName in
/-- The signature becomes `(r *io3.Reader, t T, a A) (b.B, error)`.  Where an earlier one has taken
`io3` for its own `io`, it becomes `(r *io4.Reader, t T, a A) (b.B, error)`. -/
theorem denotation?_requalify_twoOfOneName :
    program.Holds (scope ours) ∧ program.Holds (scope theirs) ∧
    (ImportTable.ofFile (scope ours).file.source).Unambiguous program ∧
    (∀ l ∈ signature.references, program.Resolves (scope theirs) l) ∧
    (∀ l ∈ signature.references, ∀ d ∈ program.denotation? (scope theirs) l,
      program.SeenBare (scope ours) d.1 → program.Uncaptured (scope ours) d.1 d.2) ∧
    ∀ calls io, (calls, io) ∈ [([], "io3"), ([(scope others, earlier)], "io4")] →
      ∃ sig' t', (program.requalify (scope ours) (scope theirs) signature).run
          (program.requalifyAll (scope ours) calls (.ofFile (scope ours).file.source))
            = (.ok sig', t') ∧
        sig'.references = [.qualified io "Reader", .name "T", .name "A", .qualified "b" "B",
          .name "error"] ∧
        List.Forall₂ (fun l l' => program.denotation? ((scope ours).withImports t') l'
          = program.denotation? (scope theirs) l) signature.references sig'.references := by
  have hdest : program.Holds (scope ours) := by decide +kernel
  have horigin : program.Holds (scope theirs) := by decide +kernel
  have hfile : (ImportTable.ofFile (scope ours).file.source).Unambiguous program := by
    decide +kernel
  have hres : ∀ l ∈ signature.references, program.Resolves (scope theirs) l := by decide +kernel
  have hclear : ∀ l ∈ signature.references, ∀ d ∈ program.denotation? (scope theirs) l,
      program.SeenBare (scope ours) d.1 → program.Uncaptured (scope ours) d.1 d.2 := by
    decide +kernel
  have hrefs : ∀ c ∈ [([], "io3"), ([(scope others, earlier)], "io4")],
      ((program.requalify (scope ours) (scope theirs) signature).run
        (program.requalifyAll (scope ours) c.1 (.ofFile (scope ours).file.source))).1.toOption.map
          Signature.references = some [.qualified c.2 "Reader", .name "T", .name "A",
            .qualified "b" "B", .name "error"] := by
    decide +kernel
  refine ⟨hdest, horigin, hfile, hres, hclear, fun calls io hmem => ?_⟩
  obtain ⟨sig', t', hrun, -, hall⟩ := denotation?_requalify program (scope ours) (scope theirs) calls
    signature hdest horigin hfile hres hclear
  have hbecame := hrefs (calls, io) hmem
  rw [hrun] at hbecame
  exact ⟨sig', t', hrun, Option.some.inj hbecame, hall.imp fun l l' h => h.1⟩

end Program

end Stubwright
