import Stubwright.Proofs.Provenance

/-!
# What is loaded

Loading a program from packages in memory computes the closure of its roots under imports.  The queue
holds the roots first, so that every root is read as one, whatever imports it; what is loaded from a
path and whether it is missing then depends on the path alone, and the program on which paths are
reached.

* `Shelf.holds_iff`: a package is made of the files that can be read and declare the name that the
  first of them declares.
* `Program.Loading`, `Program.loading_loadQueue`: what holds of the queue at every step, and what is
  left when it is empty.
* `Program.exists_load_iff`: when loading succeeds.
* `Program.load_congr`: the order of the roots, and what is not reached, do not matter.
* `Program.load_closure`: loading computes the closure.
-/

namespace Stubwright

open List

/-- The file that a unit is read as, if it can be read. -/
def SourceUnit.parsed? (unit : SourceUnit) : Option PackageFile :=
  match SourceFile.parse unit.text with
  | .ok source => some ⟨unit.path, unit.text, source⟩
  | .error _ => none

/-- A unit can be read as a source file. -/
def SourceUnit.Parses (unit : SourceUnit) : Prop :=
  ∃ source, SourceFile.parse unit.text = .ok source

theorem SourceUnit.parses_iff {unit : SourceUnit} : unit.Parses ↔ unit.parsed?.isSome = true := by
  unfold Parses parsed?
  cases SourceFile.parse unit.text with
  | error e => simp
  | ok source => simp

theorem SourceUnit.parsed?_eq_some_iff {unit : SourceUnit} {file : PackageFile} :
    unit.parsed? = some file ↔ ∃ source, SourceFile.parse unit.text = .ok source ∧
      file = ⟨unit.path, unit.text, source⟩ := by
  unfold parsed?
  cases SourceFile.parse unit.text with
  | error e => simp
  | ok source => simp [eq_comm]

namespace Shelf

variable {s s' : Shelf} {roots roots' : List String} {path name : String} {units : List SourceUnit}
  {files : List PackageFile} {pkg : Package} {imported : String}

/-- The first of the files that can be read declares a package name. -/
def FirstDeclares (units : List SourceUnit) (name : String) : Prop :=
  ∃ before first after source, units = before ++ first :: after ∧ (∀ unit ∈ before, ¬unit.Parses) ∧
    SourceFile.parse first.text = .ok source ∧ source.package = name

/-- The files that are kept for a package name, in order: those that can be read and declare it. -/
inductive Keeps (name : String) : List SourceUnit → List PackageFile → Prop
  | nil : Keeps name [] []
  | kept {unit : SourceUnit} {units : List SourceUnit} {files : List PackageFile}
      {source : SourceFile} (hparse : SourceFile.parse unit.text = .ok source)
      (hname : source.package = name) (h : Keeps name units files) :
      Keeps name (unit :: units) (⟨unit.path, unit.text, source⟩ :: files)
  | left {unit : SourceUnit} {units : List SourceUnit} {files : List PackageFile}
      (hother : ∀ source, SourceFile.parse unit.text = .ok source → source.package ≠ name)
      (h : Keeps name units files) : Keeps name (unit :: units) files

/-- A package is the one at an import path: it has the name that the first file there declares, and
the files that are kept for it. -/
def Holds (s : Shelf) (path : String) (pkg : Package) : Prop :=
  pkg.path = path ∧ ∃ units, s.packages.lookup path = some units ∧ FirstDeclares units pkg.name ∧
    Keeps pkg.name units pkg.files

/-- The package at an import path: of the files that can be read, those that declare the name that the
first one declares. -/
def package? (s : Shelf) (path : String) : Option Package :=
  (s.packages.lookup path).bind fun units => Program.ofFiles? path (units.filterMap (·.parsed?))

/-- There is a package with a file that can be read. -/
def HasReadable (s : Shelf) (path : String) : Prop :=
  ∃ units, s.packages.lookup path = some units ∧ ∃ unit ∈ units, unit.Parses

/-- There is a package with files, and all of them can be read. -/
def IsWhole (s : Shelf) (path : String) : Prop :=
  ∃ units, s.packages.lookup path = some units ∧ units ≠ [] ∧ ∀ unit ∈ units, unit.Parses

/-- The import paths that roots lead to by way of the imports of packages. -/
inductive Reaches (s : Shelf) (roots : List String) : String → Prop
  | root {path : String} (hmem : path ∈ roots) (hpath : Program.isPseudo path = false) :
      Reaches s roots path
  | imported {path : String} {pkg : Package} {file : PackageFile} {spec : ImportSpec}
      (h : Reaches s roots path) (hpkg : s.Holds path pkg) (hfile : file ∈ pkg.files)
      (hspec : spec ∈ file.source.importSpecs) (hpath : Program.isPseudo spec.path = false) :
      Reaches s roots spec.path

/-! ## The files of a package -/

theorem keeps_iff :
    Keeps name units files ↔
      (units.filterMap (·.parsed?)).filter (·.source.package == name) = files := by
  have hcons : ∀ (file : PackageFile) (files : List PackageFile), file.source.package = name →
      (file :: files).filter (·.source.package == name)
        = file :: files.filter (·.source.package == name) :=
    fun _ _ h => filter_cons_of_pos (beq_iff_eq.2 h)
  have hskip : ∀ (file : PackageFile) (files : List PackageFile), file.source.package ≠ name →
      (file :: files).filter (·.source.package == name) = files.filter (·.source.package == name) :=
    fun _ _ h => filter_cons_of_neg (mt beq_iff_eq.1 h)
  constructor
  · intro h
    induction h with
    | nil => rfl
    | kept hparse hname _ ih =>
      rw [filterMap_cons_some (SourceUnit.parsed?_eq_some_iff.2 ⟨_, hparse, rfl⟩),
        hcons _ _ hname, ih]
    | @left unit units files hother _ ih =>
      cases hparsed : unit.parsed? with
      | none => rw [filterMap_cons_none hparsed, ih]
      | some file =>
        obtain ⟨source, hparse, rfl⟩ := SourceUnit.parsed?_eq_some_iff.1 hparsed
        rw [filterMap_cons_some hparsed, hskip _ _ (hother source hparse), ih]
  · rintro rfl
    induction units with
    | nil => exact .nil
    | cons unit units ih =>
      cases hparsed : unit.parsed? with
      | none =>
        rw [filterMap_cons_none hparsed]
        refine .left (fun source hparse => ?_) ih
        cases hparsed.symm.trans (SourceUnit.parsed?_eq_some_iff.2 ⟨source, hparse, rfl⟩)
      | some file =>
        obtain ⟨source, hparse, rfl⟩ := SourceUnit.parsed?_eq_some_iff.1 hparsed
        rw [filterMap_cons_some hparsed]
        by_cases hname : source.package = name
        · rw [hcons _ _ hname]
          exact .kept hparse hname ih
        · rw [hskip _ _ hname]
          refine .left (fun other hother => ?_) ih
          cases hparse.symm.trans hother
          exact hname

theorem firstDeclares_iff :
    FirstDeclares units name ↔
      ∃ first rest, units.filterMap (·.parsed?) = first :: rest ∧ first.source.package = name := by
  simp only [filterMap_eq_cons_iff, SourceUnit.parsed?_eq_some_iff]
  constructor
  · rintro ⟨before, first, after, source, rfl, hbefore, hparse, hname⟩
    refine ⟨_, _, ⟨before, first, after, rfl, fun unit hunit => ?_, ⟨source, hparse, rfl⟩, rfl⟩, hname⟩
    simpa [SourceUnit.parses_iff] using hbefore unit hunit
  · rintro ⟨_, _, ⟨before, first, after, rfl, hbefore, ⟨source, hparse, rfl⟩, -⟩, hname⟩
    refine ⟨before, first, after, source, rfl, fun unit hunit => ?_, hparse, hname⟩
    simp [SourceUnit.parses_iff, hbefore unit hunit]

theorem holds_iff : s.Holds path pkg ↔ s.package? path = some pkg := by
  have hfiles : ∀ files, Program.ofFiles? path files = some pkg ↔ pkg.path = path ∧
      (∃ first rest, files = first :: rest ∧ first.source.package = pkg.name) ∧
        files.filter (·.source.package == pkg.name) = pkg.files := by
    intro files
    cases files with
    | nil => simp [Program.ofFiles?]
    | cons first rest =>
      simp only [Program.ofFiles?, Option.some.injEq]
      constructor
      · rintro rfl
        exact ⟨rfl, ⟨first, rest, rfl, rfl⟩, rfl⟩
      · rintro ⟨rfl, ⟨_, _, ⟨⟩, hname⟩, hfiles⟩
        rw [hname, hfiles]
  rw [Holds, package?, Option.bind_eq_some_iff]
  simp only [hfiles, firstDeclares_iff, keeps_iff]
  constructor
  · rintro ⟨hpath, units, hunits, hfirst, hkept⟩
    exact ⟨units, hunits, hpath, hfirst, hkept⟩
  · rintro ⟨units, hunits, hpath, hfirst, hkept⟩
    exact ⟨hpath, units, hunits, hfirst, hkept⟩

theorem mem_importPaths :
    imported ∈ Program.importPaths pkg ↔
      ∃ file ∈ pkg.files, ∃ spec ∈ file.source.importSpecs, spec.path = imported := by
  simp only [Program.importPaths, mem_flatMap, mem_map]

/-- From a path that is reached, all that the package there imports is reached. -/
theorem Reaches.imports (h : s.Reaches roots path)
    (hpkg : s.package? path = some pkg) (hmem : imported ∈ Program.importPaths pkg)
    (hpath : Program.isPseudo imported = false) : s.Reaches roots imported := by
  obtain ⟨file, hfile, spec, hspec, rfl⟩ := mem_importPaths.1 hmem
  exact .imported h (holds_iff.2 hpkg) hfile hspec hpath

theorem Reaches.not_isPseudo (h : s.Reaches roots path) : Program.isPseudo path = false := by
  cases h with
  | root _ hpath => exact hpath
  | imported _ _ _ _ hpath => exact hpath

theorem package?_eq_none_iff : s.package? path = none ↔ ¬s.HasReadable path := by
  have hfiles : ∀ files, Program.ofFiles? path files = none ↔ files = [] := by
    intro files
    cases files <;> simp [Program.ofFiles?]
  unfold package? HasReadable
  cases s.packages.lookup path with
  | none => simp
  | some units =>
    simp only [Option.bind_some, hfiles, filterMap_eq_nil_iff, Option.some.injEq,
      exists_eq_left', not_exists, not_and, SourceUnit.parses_iff, Bool.not_eq_true,
      Option.isSome_eq_false_iff, Option.isNone_iff_eq_none]

theorem IsWhole.hasReadable (h : s.IsWhole path) : s.HasReadable path := by
  obtain ⟨units, hunits, hne, hall⟩ := h
  obtain ⟨unit, hunit⟩ := exists_mem_of_ne_nil units hne
  exact ⟨units, hunits, unit, hunit, hall unit hunit⟩

theorem Reaches.congr (hroots : ∀ root, root ∈ roots → root ∈ roots')
    (hsame : ∀ path, s.Reaches roots path → s'.package? path = s.package? path)
    (h : s.Reaches roots path) : s'.Reaches roots' path := by
  induction h with
  | root hmem hpath => exact .root (hroots _ hmem) hpath
  | imported h hpkg hfile hspec hpath ih =>
    exact .imported ih (holds_iff.2 ((hsame _ h).trans (holds_iff.1 hpkg))) hfile hspec hpath

theorem Reaches.congr_symm (hroots : ∀ root, root ∈ roots' → root ∈ roots)
    (hsame : ∀ path, s.Reaches roots path → s'.package? path = s.package? path)
    (h : s'.Reaches roots' path) : s.Reaches roots path := by
  induction h with
  | root hmem hpath => exact .root (hroots _ hmem) hpath
  | imported h hpkg hfile hspec hpath ih =>
    exact .imported ih (holds_iff.2 ((hsame _ ih).symm.trans (holds_iff.1 hpkg))) hfile hspec hpath

end Shelf

/-- The type found under a name is the first one of that name. -/
theorem Package.lookup?_eq_some_iff {pkg : Package} {name : String} {decl : Declared} :
    pkg.lookup? name = some decl ↔ ∃ before after, pkg.typeDecls = before ++ decl :: after ∧
      decl.name = name ∧ ∀ d ∈ before, d.name ≠ name := by
  rw [lookup?_eq_find?, find?_eq_some_iff_append]
  constructor
  · rintro ⟨hname, before, after, hsplit, hbefore⟩
    refine ⟨before, after, hsplit, beq_iff_eq.1 hname, fun d hd heq => ?_⟩
    have hd' := hbefore d hd
    rw [Bool.not_eq_true', beq_eq_false_iff_ne] at hd'
    exact hd' heq
  · rintro ⟨before, after, hsplit, hname, hbefore⟩
    refine ⟨beq_iff_eq.2 hname, before, after, hsplit, fun d hd => ?_⟩
    rw [Bool.not_eq_true', beq_eq_false_iff_ne]
    exact hbefore d hd

namespace Program

variable {s : Shelf} {roots : List String} {p : Program} {path : String} {pkg : Package}
  {queue : List (String × Bool)} {units : List SourceUnit} {bound : List String}

/-! ## Reading a package -/

theorem readFiles_false (units : List SourceUnit) :
    readFiles false units = .ok (units.filterMap (·.parsed?)) := by
  induction units with
  | nil => rfl
  | cons unit units ih =>
    rw [readFiles, filterMap_cons, SourceUnit.parsed?, ih]
    cases SourceFile.parse unit.text <;> rfl

theorem readFiles_true (units : List SourceUnit) (h : ∀ unit ∈ units, unit.Parses) :
    readFiles true units = .ok (units.filterMap (·.parsed?)) := by
  induction units with
  | nil => rfl
  | cons unit units ih =>
    obtain ⟨source, hsource⟩ := h unit mem_cons_self
    rw [readFiles, filterMap_cons, SourceUnit.parsed?, hsource,
      ih fun unit hunit => h unit (mem_cons_of_mem _ hunit)]
    rfl

theorem parses_of_readFiles {files : List PackageFile}
    (h : readFiles true units = .ok files) : ∀ unit ∈ units, unit.Parses := by
  induction units generalizing files with
  | nil =>
    intro unit hunit
    cases hunit
  | cons unit units ih =>
    rw [readFiles] at h
    cases hsource : SourceFile.parse unit.text with
    | error e =>
      rw [hsource] at h
      cases h
    | ok source =>
      rw [hsource] at h
      cases hrest : readFiles true units with
      | error e =>
        rw [hrest] at h
        cases h
      | ok rest => exact forall_mem_cons.2 ⟨⟨source, hsource⟩, ih hrest⟩

theorem readPackage_of_some (h : s.packages.lookup path = some units)
    (isRoot : Bool) :
    readPackage s.toSource path isRoot = (readFiles isRoot units).map (ofFiles? path) := by
  have hread : s.toSource.read path = some units := h
  rw [readPackage, hread]

theorem readPackage_of_none (h : s.packages.lookup path = none) (isRoot : Bool) :
    readPackage s.toSource path isRoot = .ok none := by
  have hread : s.toSource.read path = none := h
  rw [readPackage, hread]

theorem readPackage_false (s : Shelf) (path : String) :
    readPackage s.toSource path false = .ok (s.package? path) := by
  cases h : s.packages.lookup path with
  | none => rw [readPackage_of_none h, Shelf.package?, h, Option.bind_none]
  | some units => rw [readPackage_of_some h, readFiles_false, Shelf.package?, h]; rfl

theorem readPackage_true (h : s.IsWhole path) :
    readPackage s.toSource path true = .ok (s.package? path) := by
  obtain ⟨units, hunits, -, hall⟩ := h
  rw [readPackage_of_some hunits, readFiles_true units hall, Shelf.package?, hunits]
  rfl

theorem isWhole_of_readPackage
    (h : readPackage s.toSource path true = .ok (some pkg)) : s.IsWhole path := by
  cases hunits : s.packages.lookup path with
  | none =>
    rw [readPackage_of_none hunits] at h
    cases h
  | some units =>
    rw [readPackage_of_some hunits] at h
    cases hfiles : readFiles true units with
    | error e =>
      rw [hfiles] at h
      cases h
    | ok files =>
      refine ⟨units, hunits, ?_, parses_of_readFiles hfiles⟩
      rintro rfl
      cases hfiles
      cases h

/-! ## Programs in order -/

theorem package?_eq_some_of_mem (hpaths : (p.packages.map (·.path)).Nodup)
    (h : pkg ∈ p.packages) : p.package? pkg.path = some pkg := by
  cases hfind : p.package? pkg.path with
  | none => exact absurd (beq_self_eq_true _) (find?_eq_none.1 hfind pkg h)
  | some q =>
    have hq : q.path = pkg.path := by simpa using find?_some hfind
    rw [inj_on_of_nodup_map hpaths (mem_of_find?_eq_some hfind) h hq]

theorem isLoaded_iff : p.isLoaded path = true ↔ ∃ pkg, p.package? path = some pkg := by
  rw [← Option.isSome_iff_exists, package?, find?_isSome, isLoaded, any_eq_true]

/-- Packages and missing paths stand in the order of their paths. -/
structure IsSorted (p : Program) : Prop where
  packages : p.packages.Pairwise fun a b => a.path < b.path
  missing : p.missing.Pairwise (· < ·)

theorem IsSorted.nodup (h : p.IsSorted) : (p.packages.map (·.path)).Nodup := by
  rw [List.Nodup, pairwise_map]
  exact h.packages.imp fun hlt => ne_of_lt hlt

theorem IsSorted.addMissing (h : p.IsSorted) (path : String) : (p.addMissing path).IsSorted := by
  refine ⟨h.packages, ?_⟩
  have hinsert : ∀ names : Names, names.Pairwise (· < ·) →
      (Names.insert path names).Pairwise (· < ·) := by
    intro names hnames
    induction names with
    | nil => exact pairwise_singleton _ _
    | cons name names ih =>
      obtain ⟨hlt, hnames'⟩ := pairwise_cons.1 hnames
      rw [Names.insert]
      split
      · rename_i hfirst
        refine pairwise_cons.2 ⟨?_, hnames⟩
        intro x hx
        rcases mem_cons.1 hx with rfl | hx
        · exact hfirst
        · exact String.lt_trans hfirst (hlt x hx)
      · rename_i hnot
        split
        · exact hnames
        · rename_i hne
          refine pairwise_cons.2 ⟨?_, ih hnames'⟩
          intro x hx
          rcases Names.mem_insert.1 hx with rfl | hx
          · exact lt_of_le_of_ne (not_lt.1 hnot) (Ne.symm hne)
          · exact hlt x hx
  exact hinsert _ h.missing

theorem IsSorted.add (h : p.IsSorted) (hfresh : p.isLoaded pkg.path = false) :
    (p.add pkg).IsSorted := by
  refine ⟨?_, h.missing⟩
  have hne : ∀ q ∈ p.packages, q.path ≠ pkg.path := by
    intro q hq heq
    rw [isLoaded, any_eq_false] at hfresh
    exact hfresh q hq (beq_iff_eq.2 heq)
  have hinsert : ∀ ps : List Package, ps.Pairwise (fun a b => a.path < b.path) →
      (∀ q ∈ ps, q.path ≠ pkg.path) →
        (insertPackage pkg ps).Pairwise fun a b => a.path < b.path := by
    intro ps hps
    induction ps with
    | nil => exact fun _ => pairwise_singleton _ _
    | cons q ps ih =>
      intro hne
      obtain ⟨hlt, hps'⟩ := pairwise_cons.1 hps
      rw [insertPackage]
      split
      · rename_i hfirst
        refine pairwise_cons.2 ⟨?_, hps⟩
        intro x hx
        rcases mem_cons.1 hx with rfl | hx
        · exact hfirst
        · exact String.lt_trans hfirst (hlt x hx)
      · rename_i hnot
        refine pairwise_cons.2 ⟨?_, ih hps' fun q hq => hne q (mem_cons_of_mem _ hq)⟩
        intro x hx
        rcases mem_insertPackage.1 hx with rfl | hx
        · exact lt_of_le_of_ne (not_lt.1 hnot) (hne q mem_cons_self)
        · exact hlt x hx
  exact hinsert _ h.packages hne

theorem eq_of_pairwise_lt {α : Type} {f : α → String} {as bs : List α}
    (ha : as.Pairwise fun x y => f x < f y) (hb : bs.Pairwise fun x y => f x < f y)
    (h : ∀ x, x ∈ as ↔ x ∈ bs) : as = bs := by
  have hnodup : ∀ {l : List α}, l.Pairwise (fun x y => f x < f y) → l.Nodup := by
    intro l hl
    exact hl.imp fun hlt heq => ne_of_lt hlt (congrArg f heq)
  refine List.Perm.eq_of_pairwise ?_ ha hb ((perm_ext_iff_of_nodup (hnodup ha) (hnodup hb)).2 h)
  intro x y _ _ hxy hyx
  exact absurd hyx (String.lt_asymm hxy)

/-- A program in order is determined by the packages at its paths and by the paths that are missing. -/
theorem eq_of_isSorted {q : Program} (hp : p.IsSorted) (hq : q.IsSorted)
    (hpackages : ∀ path, p.package? path = q.package? path)
    (hmissing : ∀ path, p.isMissing path = true ↔ q.isMissing path = true) : p = q := by
  have hsame : p.packages = q.packages := by
    refine eq_of_pairwise_lt hp.packages hq.packages fun pkg => ⟨fun h => ?_, fun h => ?_⟩
    · have hfind := package?_eq_some_of_mem hp.nodup h
      rw [hpackages] at hfind
      exact mem_of_find?_eq_some hfind
    · have hfind := package?_eq_some_of_mem hq.nodup h
      rw [← hpackages] at hfind
      exact mem_of_find?_eq_some hfind
  have hnames : p.missing = q.missing := by
    refine eq_of_pairwise_lt (f := id) hp.missing hq.missing fun name => ?_
    simpa only [isMissing, contains_iff_mem] using hmissing name
  cases p
  cases q
  cases hsame
  cases hnames
  rfl

/-! ## Loading step by step -/

theorem package?_add (hfresh : p.isLoaded pkg.path = false) (path : String) :
    (p.add pkg).package? path = if path = pkg.path then some pkg else p.package? path := by
  have hinsert : ∀ ps : List Package, (∀ q ∈ ps, (q.path == pkg.path) = false) →
      (insertPackage pkg ps).find? (·.path == path) =
        if path = pkg.path then some pkg else ps.find? (·.path == path) := by
    intro ps
    induction ps with
    | nil =>
      intro _
      rw [insertPackage, find?_cons]
      by_cases hpath : path = pkg.path
      · rw [if_pos hpath, hpath, beq_self_eq_true]
      · rw [if_neg hpath, beq_false_of_ne (Ne.symm hpath)]
    | cons q ps ih =>
      intro hne
      have hq := hne q mem_cons_self
      rw [insertPackage]
      split
      · rw [find?_cons]
        by_cases hpath : path = pkg.path
        · rw [if_pos hpath, hpath, beq_self_eq_true]
        · rw [if_neg hpath, beq_false_of_ne (Ne.symm hpath)]
      · rw [find?_cons, find?_cons, ih fun q hq => hne q (mem_cons_of_mem _ hq)]
        by_cases hpath : path = pkg.path
        · rw [if_pos hpath, if_pos hpath, hpath, hq]
        · rw [if_neg hpath, if_neg hpath]
  rw [isLoaded, any_eq_false] at hfresh
  exact hinsert p.packages fun q hq => Bool.eq_false_iff.2 (hfresh q hq)

theorem isMissing_addMissing {missing : String} :
    (p.addMissing missing).isMissing path = true ↔ path = missing ∨ p.isMissing path = true := by
  simp only [isMissing, addMissing, contains_iff_mem, Names.mem_insert]

/-- Where the loading of a program stands: all that is loaded, missing or queued is reached, the
imports of what is loaded are all seen to, and roots come first in the queue. -/
structure Loading (s : Shelf) (roots : List String) (p : Program) (queue : List (String × Bool)) :
    Prop where
  sorted : p.IsSorted
  package : ∀ path pkg, p.package? path = some pkg → s.Reaches roots path ∧ s.package? path = some pkg
  missing : ∀ path, p.isMissing path = true → s.Reaches roots path ∧ s.package? path = none
  queued : ∀ entry ∈ queue, isPseudo entry.1 = false → s.Reaches roots entry.1
  marked : ∀ entry ∈ queue, entry.2 = true → entry.1 ∈ roots
  imports : ∀ path pkg, p.package? path = some pkg → ∀ imported ∈ importPaths pkg,
    isPseudo imported = false →
      p.isLoaded imported = true ∨ p.isMissing imported = true ∨ (imported, false) ∈ queue
  /-- A root is loaded as a whole or still queued. -/
  root : ∀ root ∈ roots, isPseudo root = false →
    p.isLoaded root = true ∧ s.IsWhole root ∨ (root, true) ∈ queue
  /-- As long as roots are queued, only roots were loaded. -/
  first : (∃ entry ∈ queue, entry.2 = true) →
    (∀ path, p.isLoaded path = true → s.IsWhole path) ∧ ∀ path, p.isMissing path = false
  ordered : queue.Pairwise fun a b => b.2 = true → a.2 = true

namespace Loading

variable {isRoot : Bool} {queue : List (String × Bool)}

/-- At the start only the roots are queued. -/
theorem start (s : Shelf) (roots : List String) :
    Loading s roots .empty (roots.map fun root => (root, true)) where
  sorted := ⟨.nil, .nil⟩
  package path pkg h := by cases h
  missing path h := by cases h
  queued entry hentry hpath := by
    obtain ⟨root, hroot, rfl⟩ := mem_map.1 hentry
    exact .root hroot hpath
  marked entry hentry _ := by
    obtain ⟨root, hroot, rfl⟩ := mem_map.1 hentry
    exact hroot
  imports path pkg h := by cases h
  root root hroot _ := .inr (mem_map_of_mem hroot)
  first _ := by
    refine ⟨?_, fun _ => rfl⟩
    intro path h
    cases h
  ordered := by
    rw [pairwise_map]
    exact pairwise_of_forall fun _ _ _ => rfl

theorem no_root (h : Loading s roots p ((path, false) :: queue)) :
    ¬∃ entry ∈ queue, entry.2 = true := by
  rintro ⟨entry, hentry, hroot⟩
  cases (pairwise_cons.1 h.ordered).1 entry hentry hroot

/-- A path that was seen to before is passed over.  If it is queued as a root, it was loaded as one. -/
theorem skip (h : Loading s roots p ((path, isRoot) :: queue))
    (hskip : (p.isLoaded path || p.isMissing path || isPseudo path) = true) :
    Loading s roots p queue where
  sorted := h.sorted
  package := h.package
  missing := h.missing
  queued entry hentry := h.queued entry (mem_cons_of_mem _ hentry)
  marked entry hentry := h.marked entry (mem_cons_of_mem _ hentry)
  imports path' pkg hpkg imported himported hpath := by
    rcases h.imports path' pkg hpkg imported himported hpath with hloaded | hmissing | hmem
    · exact .inl hloaded
    · exact .inr (.inl hmissing)
    · rcases mem_cons.1 hmem with heq | hmem
      · cases heq
        rw [hpath, Bool.or_false, Bool.or_eq_true] at hskip
        exact hskip.imp_right .inl
      · exact .inr (.inr hmem)
  root root hroot hpath := by
    rcases h.root root hroot hpath with hloaded | hmem
    · exact .inl hloaded
    · rcases mem_cons.1 hmem with heq | hmem
      · cases heq
        obtain ⟨hwhole, hnone⟩ := h.first ⟨_, mem_cons_self, rfl⟩
        rw [hpath, hnone, Bool.or_false, Bool.or_false] at hskip
        exact .inl ⟨hskip, hwhole _ hskip⟩
      · exact .inr hmem
  first hroots := by
    obtain ⟨entry, hentry, hroot⟩ := hroots
    exact h.first ⟨entry, mem_cons_of_mem _ hentry, hroot⟩
  ordered := (pairwise_cons.1 h.ordered).2

theorem addMissing (h : Loading s roots p ((path, false) :: queue)) (hpath : isPseudo path = false)
    (hnone : s.package? path = none) : Loading s roots (p.addMissing path) queue where
  sorted := h.sorted.addMissing path
  package := h.package
  missing path' hmissing := by
    rcases isMissing_addMissing.1 hmissing with rfl | hmissing
    · exact ⟨h.queued _ mem_cons_self hpath, hnone⟩
    · exact h.missing path' hmissing
  queued entry hentry := h.queued entry (mem_cons_of_mem _ hentry)
  marked entry hentry := h.marked entry (mem_cons_of_mem _ hentry)
  imports path' pkg hpkg imported himported hpath' := by
    rcases h.imports path' pkg hpkg imported himported hpath' with hloaded | hmissing | hmem
    · exact .inl hloaded
    · exact .inr (.inl (isMissing_addMissing.2 (.inr hmissing)))
    · rcases mem_cons.1 hmem with heq | hmem
      · exact .inr (.inl (isMissing_addMissing.2 (.inl (congrArg Prod.fst heq))))
      · exact .inr (.inr hmem)
  root root hroot hpath' := by
    rcases h.root root hroot hpath' with hloaded | hmem
    · exact .inl hloaded
    · rcases mem_cons.1 hmem with heq | hmem
      · cases heq
      · exact .inr hmem
  first hsome := absurd hsome h.no_root
  ordered := (pairwise_cons.1 h.ordered).2

/-- A package that is there is loaded, and its imports are queued behind all others. -/
theorem add {pkg : Package} (h : Loading s roots p ((path, isRoot) :: queue))
    (hpath : isPseudo path = false) (hfresh : p.isLoaded path = false)
    (hpkg : s.package? path = some pkg) (hname : pkg.path = path)
    (hwhole : isRoot = true → s.IsWhole path) :
    Loading s roots (p.add pkg) (queue ++ (importPaths pkg).map fun imported => (imported, false)) := by
  subst hname
  have hreaches := h.queued _ mem_cons_self hpath
  have hget := package?_add hfresh
  have hloaded : ∀ path, (p.add pkg).isLoaded path = true ↔
      path = pkg.path ∨ p.isLoaded path = true := by
    intro path
    rw [isLoaded_add, Bool.or_eq_true, beq_iff_eq, eq_comm]
  refine ⟨h.sorted.add hfresh, ?_, h.missing, ?_, ?_, ?_, ?_, ?_, ?_⟩
  · intro path' pkg' h'
    rw [hget] at h'
    split at h'
    · rename_i heq
      cases h'
      exact heq ▸ ⟨hreaches, hpkg⟩
    · exact h.package path' pkg' h'
  · intro entry hentry hpath'
    rcases mem_append.1 hentry with hentry | hentry
    · exact h.queued entry (mem_cons_of_mem _ hentry) hpath'
    · obtain ⟨imported, himported, rfl⟩ := mem_map.1 hentry
      exact hreaches.imports hpkg himported hpath'
  · intro entry hentry hroot
    rcases mem_append.1 hentry with hentry | hentry
    · exact h.marked entry (mem_cons_of_mem _ hentry) hroot
    · obtain ⟨imported, -, rfl⟩ := mem_map.1 hentry
      cases hroot
  · intro path' pkg' h' imported himported hpath'
    rw [hget] at h'
    split at h'
    · cases h'
      exact .inr (.inr (mem_append_right _ (mem_map_of_mem himported)))
    · rcases h.imports path' pkg' h' imported himported hpath' with hload | hmissing | hmem
      · exact .inl ((hloaded _).2 (.inr hload))
      · exact .inr (.inl hmissing)
      · rcases mem_cons.1 hmem with heq | hmem
        · exact .inl ((hloaded _).2 (.inl (congrArg Prod.fst heq)))
        · exact .inr (.inr (mem_append_left _ hmem))
  · intro root hroot hpath'
    rcases h.root root hroot hpath' with ⟨hload, hroot⟩ | hmem
    · exact .inl ⟨(hloaded _).2 (.inr hload), hroot⟩
    · rcases mem_cons.1 hmem with heq | hmem
      · cases heq
        exact .inl ⟨(hloaded _).2 (.inl rfl), hwhole rfl⟩
      · exact .inr (mem_append_left _ hmem)
  · rintro ⟨entry, hentry, hroot⟩
    -- a root that is still queued shows that this path was queued as one
    have hbehind : entry ∈ queue := by
      rcases mem_append.1 hentry with hentry | hentry
      · exact hentry
      · obtain ⟨imported, -, rfl⟩ := mem_map.1 hentry
        cases hroot
    have hthis : isRoot = true := (pairwise_cons.1 h.ordered).1 entry hbehind hroot
    obtain ⟨hall, hnone⟩ := h.first ⟨_, mem_cons_self, hthis⟩
    refine ⟨fun path' hload => ?_, hnone⟩
    rcases (hloaded path').1 hload with rfl | hload
    · exact hwhole hthis
    · exact hall path' hload
  · refine pairwise_append.2 ⟨(pairwise_cons.1 h.ordered).2, ?_, ?_⟩
    · rw [pairwise_map]
      exact pairwise_of_forall fun _ _ h => h
    · intro a _ b hb hroot
      obtain ⟨imported, -, rfl⟩ := mem_map.1 hb
      cases hroot

end Loading

theorem package?_eq_none_of_lookup (h : s.packages.lookup path = none) : s.package? path = none := by
  rw [Shelf.package?, h, Option.bind_none]

/-- What comes out of loading a program has nothing queued. -/
theorem loading_loadQueue (hroots : roots ⊆ bound)
    (hbound : s.packages.map (·.1) ⊆ bound) {p' : Program}
    (hp : Loading s roots p queue) (h : loadQueue s.toSource bound p queue = .ok p') :
    Loading s roots p' [] := by
  fun_induction loadQueue s.toSource bound p queue with
  | case1 p =>
    cases h
    exact hp
  | case2 p path isRoot queue hskip ih => exact ih (hp.skip hskip) h
  | case3 => cases h
  | case4 => cases h
  | case5 p path isRoot queue hskip hmem hread hroot ih =>
    simp only [Bool.or_eq_true, not_or, Bool.not_eq_true] at hskip hroot
    subst hroot
    rw [readPackage_false] at hread
    exact ih (hp.addMissing hskip.2 (Except.ok.inj hread)) h
  | case6 p path isRoot queue hskip hmem pkg hread ih =>
    simp only [Bool.or_eq_true, not_or, Bool.not_eq_true] at hskip
    have hname := path_of_readPackage hread
    refine ih (hp.add hskip.2 hskip.1.1 ?_ hname ?_) h
    · cases isRoot with
      | false =>
        rw [readPackage_false] at hread
        exact Except.ok.inj hread
      | true =>
        rw [readPackage_true (isWhole_of_readPackage hread)] at hread
        exact Except.ok.inj hread
    · rintro rfl
      exact isWhole_of_readPackage hread
  | case7 p path isRoot queue hskip hmem ih =>
    simp only [Bool.or_eq_true, not_or, Bool.not_eq_true] at hskip
    have hroot : isRoot = false := by
      cases isRoot with
      | false => rfl
      | true => exact absurd (hroots (hp.marked _ mem_cons_self rfl)) hmem
    subst hroot
    refine ih (hp.addMissing hskip.2 (package?_eq_none_of_lookup ?_)) h
    rw [lookup_eq_none_iff]
    intro entry hentry
    refine bne_iff_ne.2 fun heq => hmem (hbound ?_)
    rw [heq]
    exact mem_map_of_mem hentry

/-- Roots that are whole are all it takes. -/
theorem exists_loadQueue
    (hqueue : ∀ entry ∈ queue, entry.2 = true → isPseudo entry.1 = false → s.IsWhole entry.1) :
    ∃ p', loadQueue s.toSource bound p queue = .ok p' := by
  fun_induction loadQueue s.toSource bound p queue with
  | case1 p => exact ⟨p, rfl⟩
  | case2 p path isRoot queue hskip ih | case5 p path isRoot queue hskip hmem hread hroot ih
  | case7 p path isRoot queue hskip hmem ih =>
    exact ih fun entry hentry => hqueue entry (mem_cons_of_mem _ hentry)
  | case3 p path isRoot queue hskip hmem e hread =>
    simp only [Bool.or_eq_true, not_or, Bool.not_eq_true] at hskip
    cases isRoot with
    | false => cases (readPackage_false s path).symm.trans hread
    | true =>
      cases (readPackage_true (hqueue _ mem_cons_self rfl hskip.2)).symm.trans hread
  | case4 p path queue hskip hmem hread =>
    simp only [Bool.or_eq_true, not_or, Bool.not_eq_true] at hskip
    have hwhole := hqueue _ mem_cons_self rfl hskip.2
    have hnone := Except.ok.inj ((readPackage_true hwhole).symm.trans hread)
    exact absurd hwhole.hasReadable (Shelf.package?_eq_none_iff.1 hnone)
  | case6 p path isRoot queue hskip hmem pkg hread ih =>
    refine ih fun entry hentry hroot => ?_
    rcases mem_append.1 hentry with hentry | hentry
    · exact hqueue entry (mem_cons_of_mem _ hentry) hroot
    · obtain ⟨imported, -, rfl⟩ := mem_map.1 hentry
      cases hroot

/-! ## Loaded programs -/

theorem loading_load (h : load s.toSource roots = .ok p) : Loading s roots p [] :=
  loading_loadQueue (subset_append_left _ _) (subset_append_right _ _) (.start s roots) h

theorem Loading.isLoaded_or_isMissing (hp : Loading s roots p []) (h : s.Reaches roots path) :
    p.isLoaded path = true ∨ p.isMissing path = true := by
  induction h with
  | root hmem hpath =>
    rcases hp.root _ hmem hpath with ⟨hloaded, -⟩ | hnil
    · exact .inl hloaded
    · cases hnil
  | imported h hpkg hfile hspec hpath ih =>
    have hpkg := Shelf.holds_iff.1 hpkg
    have hmem := Shelf.mem_importPaths.2 ⟨_, hfile, _, hspec, rfl⟩
    rcases ih with hloaded | hmissing
    · obtain ⟨pkg', hpkg'⟩ := isLoaded_iff.1 hloaded
      cases hpkg.symm.trans (hp.package _ _ hpkg').2
      rcases hp.imports _ _ hpkg' _ hmem hpath with hloaded | hmissing | hnil
      · exact .inl hloaded
      · exact .inr hmissing
      · cases hnil
    · cases hpkg.symm.trans (hp.missing _ hmissing).2

/-- What is loaded from a path. -/
theorem Loading.package?_eq_some_iff (hp : Loading s roots p []) :
    p.package? path = some pkg ↔ s.Reaches roots path ∧ s.package? path = some pkg := by
  refine ⟨hp.package path pkg, ?_⟩
  rintro ⟨hreaches, hpkg⟩
  rcases hp.isLoaded_or_isMissing hreaches with hloaded | hmissing
  · obtain ⟨pkg', hpkg'⟩ := isLoaded_iff.1 hloaded
    cases hpkg.symm.trans (hp.package _ _ hpkg').2
    exact hpkg'
  · cases hpkg.symm.trans (hp.missing _ hmissing).2

theorem Loading.isMissing_iff (hp : Loading s roots p []) :
    p.isMissing path = true ↔ s.Reaches roots path ∧ s.package? path = none := by
  refine ⟨hp.missing path, ?_⟩
  rintro ⟨hreaches, hnone⟩
  rcases hp.isLoaded_or_isMissing hreaches with hloaded | hmissing
  · obtain ⟨pkg, hpkg⟩ := isLoaded_iff.1 hloaded
    cases hnone.symm.trans (hp.package _ _ hpkg).2
  · exact hmissing

theorem exists_load_iff :
    (∃ p, load s.toSource roots = .ok p) ↔ ∀ root ∈ roots, isPseudo root = false → s.IsWhole root := by
  constructor
  · rintro ⟨p, h⟩ root hroot hpath
    rcases (loading_load h).root root hroot hpath with ⟨-, hwhole⟩ | hnil
    · exact hwhole
    · cases hnil
  · intro h
    refine exists_loadQueue fun entry hentry _ hpath => ?_
    obtain ⟨root, hroot, rfl⟩ := mem_map.1 hentry
    exact h root hroot hpath

/-- A program depends only on which paths are roots and on the packages that they lead to. -/
theorem load_congr {s' : Shelf} {roots' : List String} (hroots : ∀ root, root ∈ roots' ↔ root ∈ roots)
    (hsame : ∀ path, s.Reaches roots path → s'.packages.lookup path = s.packages.lookup path)
    (h : load s.toSource roots = .ok p) : load s'.toSource roots' = .ok p := by
  have hpackage : ∀ path, s.Reaches roots path → s'.package? path = s.package? path := by
    intro path hpath
    rw [Shelf.package?, Shelf.package?, hsame path hpath]
  have hreaches : ∀ path, s'.Reaches roots' path ↔ s.Reaches roots path := fun path =>
    ⟨fun h => h.congr_symm (fun root => (hroots root).1) hpackage,
      fun h => h.congr (fun root => (hroots root).2) hpackage⟩
  have hwhole : ∀ root ∈ roots', isPseudo root = false → s'.IsWhole root := by
    intro root hroot hpath
    have hroot' := (hroots root).1 hroot
    rw [Shelf.IsWhole, hsame root (.root hroot' hpath)]
    exact exists_load_iff.1 ⟨p, h⟩ root hroot' hpath
  obtain ⟨p', h'⟩ := exists_load_iff.2 hwhole
  have hp := loading_load h
  have hp' := loading_load h'
  rw [h']
  refine congrArg _ (eq_of_isSorted hp'.sorted hp.sorted (fun path => ?_) fun path => ?_)
  · refine Option.ext fun pkg => ?_
    rw [hp'.package?_eq_some_iff, hp.package?_eq_some_iff, hreaches]
    exact and_congr_right fun hpath => by rw [hpackage path hpath]
  · rw [hp'.isMissing_iff, hp.isMissing_iff, hreaches]
    exact and_congr_right fun hpath => by rw [hpackage path hpath]

theorem isPseudo_iff : isPseudo path = true ↔ path = "C" ∨ path = "unsafe" := by
  rw [isPseudo, Bool.or_eq_true, beq_iff_eq, beq_iff_eq]

/-- Loading succeeds just in case every root is there with files that can all be read.  It then comes to
the paths that the roots lead to and to no others, and holds of each what can be read there; so the
program depends neither on the order of the roots nor on what is not reached.  A type is found under its
name where it is declared first. -/
theorem load_closure (s : Shelf) (roots : List String) :
    (∀ path, isPseudo path = true ↔ path = "C" ∨ path = "unsafe") ∧
    ((∃ p, load s.toSource roots = .ok p) ↔
      ∀ root ∈ roots, isPseudo root = false → s.IsWhole root) ∧
    (∀ p, load s.toSource roots = .ok p →
      (∀ path, p.isLoaded path = true → p.isMissing path = false) ∧
      (∀ path, isPseudo path = true → p.isLoaded path = false ∧ p.isMissing path = false) ∧
      (∀ root ∈ roots, isPseudo root = false → p.isLoaded root = true) ∧
      (∀ path, p.isLoaded path = true ∨ p.isMissing path = true ↔ s.Reaches roots path) ∧
      (∀ path, s.Reaches roots path → (p.isMissing path = true ↔ ¬s.HasReadable path)) ∧
      (∀ path pkg, p.package? path = some pkg ↔ s.Reaches roots path ∧ s.Holds path pkg) ∧
      ∀ (s' : Shelf) (roots' : List String), (∀ root, root ∈ roots' ↔ root ∈ roots) →
        (∀ path, s.Reaches roots path → s'.packages.lookup path = s.packages.lookup path) →
        load s'.toSource roots' = .ok p) ∧
    ∀ (pkg : Package) (name : String),
      (∀ decl, pkg.lookup? name = some decl ↔ ∃ before after,
        pkg.typeDecls = before ++ decl :: after ∧ decl.name = name ∧ ∀ d ∈ before, d.name ≠ name) ∧
      (pkg.lookup? name = none ↔ ∀ decl ∈ pkg.typeDecls, decl.name ≠ name) := by
  refine ⟨fun _ => isPseudo_iff, exists_load_iff, fun p h => ?_, fun pkg name => ?_⟩
  · have hp := loading_load h
    have hloaded : ∀ {path}, p.isLoaded path = true → s.Reaches roots path ∧ s.package? path ≠ none := by
      intro path hpath
      obtain ⟨pkg, hpkg⟩ := isLoaded_iff.1 hpath
      obtain ⟨hreaches, hsome⟩ := hp.package path pkg hpkg
      exact ⟨hreaches, by simp [hsome]⟩
    refine ⟨?_, ?_, ?_, ?_, ?_, fun path pkg => ?_, fun s' roots' hroots hsame =>
      load_congr hroots hsame h⟩
    · intro path hpath
      refine Bool.eq_false_iff.2 fun hmissing => (hloaded hpath).2 (hp.missing path hmissing).2
    · intro path hpseudo
      refine ⟨Bool.eq_false_iff.2 fun hpath => ?_, Bool.eq_false_iff.2 fun hpath => ?_⟩
      · cases (hloaded hpath).1.not_isPseudo.symm.trans hpseudo
      · cases (hp.missing path hpath).1.not_isPseudo.symm.trans hpseudo
    · intro root hroot hpath
      rcases hp.root root hroot hpath with ⟨hroot, -⟩ | hnil
      · exact hroot
      · cases hnil
    · intro path
      refine ⟨fun hpath => ?_, hp.isLoaded_or_isMissing⟩
      rcases hpath with hpath | hpath
      · exact (hloaded hpath).1
      · exact (hp.missing path hpath).1
    · intro path hpath
      rw [hp.isMissing_iff, Shelf.package?_eq_none_iff, and_iff_right hpath]
    · rw [hp.package?_eq_some_iff, Shelf.holds_iff]
  · refine ⟨fun decl => Package.lookup?_eq_some_iff, ?_⟩
    rw [Package.lookup?_eq_find?, find?_eq_none]
    simp only [beq_iff_eq, Declared.name]

/-- A package that imports one that is not there, `C`, and one with a file that cannot be read, one of
another name, and two others, by which it imports the first again and another that is not there. -/
def cyclicShelf : Shelf :=
  (((((Shelf.empty none).addFile "m/a" "a.go"
    "package a;import(\x22C\x22;\x22m/b\x22;\x22m/c\x22);type A int").addFile
      "m/b" "b.go" "package ;").addFile "m/b" "c.go" "package b;import \x22m/a\x22").addFile
        "m/b" "d.go" "package d;import \x22m/d\x22").addFile "m/b" "e.go" "package b;import \x22m/e\x22"

theorem load_closure_cyclic :
    ∃ p, load cyclicShelf.toSource ["C", "m/a"] = .ok p ∧ p.isLoaded "m/b" = true ∧
      p.isMissing "m/c" = true ∧ p.isMissing "m/e" = true ∧
      p.isLoaded "m/d" = false ∧ p.isMissing "m/d" = false ∧
      load cyclicShelf.toSource ["m/a", "C", "m/a"] = .ok p := by
  obtain ⟨-, hsucceeds, hloads, -⟩ := load_closure cyclicShelf ["C", "m/a"]
  have hwhole : cyclicShelf.IsWhole "m/a" := by
    refine ⟨_, rfl, cons_ne_nil _ _, forall_mem_singleton.2 ?_⟩
    exact SourceUnit.parses_iff.2 (by decide +kernel)
  obtain ⟨p, h⟩ := hsucceeds.2 (by
    intro root hroot hpath
    rcases mem_cons.1 hroot with rfl | hroot
    · cases hpath
    · exact mem_singleton.1 hroot ▸ hwhole)
  obtain ⟨-, -, -, hreached, hmissing, hpackage, hsame⟩ := hloads p h
  have hroot : cyclicShelf.Reaches ["C", "m/a"] "m/a" := .root (by decide) (by decide)
  have ha : cyclicShelf.package? "m/a" = some ((cyclicShelf.package? "m/a").getD default) := by
    decide +kernel
  have hb : cyclicShelf.package? "m/b" = some ((cyclicShelf.package? "m/b").getD default) := by
    decide +kernel
  have hreachb : cyclicShelf.Reaches ["C", "m/a"] "m/b" :=
    hroot.imports ha (by decide +kernel) (by decide)
  -- what is imported from these paths is one of them
  have hclosed : ∀ path ∈ ["m/a", "m/b", "m/c", "m/e"], ∀ imported ∈
      ((cyclicShelf.package? path).map importPaths).getD [],
        isPseudo imported = false → imported ∈ ["m/a", "m/b", "m/c", "m/e"] := by decide +kernel
  have honly : ∀ path, cyclicShelf.Reaches ["C", "m/a"] path → path ∈ ["m/a", "m/b", "m/c", "m/e"] := by
    intro path hpath
    induction hpath with
    | @root path hmem hpath =>
      rcases mem_cons.1 hmem with rfl | hmem
      · cases hpath
      · rw [mem_singleton.1 hmem]
        exact mem_cons_self
    | imported _ hpkg hfile hspec hpath ih =>
      refine hclosed _ ih _ ?_ hpath
      rw [Shelf.holds_iff.1 hpkg]
      exact Shelf.mem_importPaths.2 ⟨_, hfile, _, hspec, rfl⟩
  have hd : ¬(p.isLoaded "m/d" = true ∨ p.isMissing "m/d" = true) :=
    mt (fun h => honly _ ((hreached _).1 h)) (by decide)
  simp only [not_or, Bool.not_eq_true] at hd
  refine ⟨p, h, ?_, ?_, ?_, hd.1, hd.2, hsame cyclicShelf ["m/a", "C", "m/a"] (by simp) fun _ _ => rfl⟩
  · exact isLoaded_iff.2 ⟨_, (hpackage _ _).2 ⟨hreachb, Shelf.holds_iff.2 hb⟩⟩
  · refine (hmissing "m/c" (hroot.imports ha (by decide +kernel) (by decide))).2 ?_
    exact Shelf.package?_eq_none_iff.1 (by decide +kernel)
  · refine (hmissing "m/e" (hreachb.imports hb (by decide +kernel) (by decide))).2 ?_
    exact Shelf.package?_eq_none_iff.1 (by decide +kernel)

end Program

end Stubwright
