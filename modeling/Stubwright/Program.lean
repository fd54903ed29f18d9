import Stubwright.Names
import Stubwright.Sha256
import Stubwright.SourceFile
import Stubwright.TypeRef

/-!
# Programs

A program is a set of packages, each with the files that make it up, and the import paths at which
no package was found.  Packages stand in the order of their import paths, and the files of a
package in the order of their names, so that a program does not depend on the order in which it was
read.

A type is declared in a package, a file and a place there; `Declared` holds all three.  `Scope` is
where names are looked up: a file and the package it belongs to.
-/

namespace Stubwright

/-- A file before it is read. -/
structure SourceUnit where
  /-- Where the file is. -/
  path : String
  text : String
deriving DecidableEq, Repr, Inhabited

/-- A file of a package, read. -/
structure PackageFile where
  path : String
  /-- What it holds. -/
  text : String
  source : SourceFile
deriving DecidableEq, Repr, Inhabited

/-- The digest of the text of a file. -/
def PackageFile.digest (f : PackageFile) : String :=
  Sha256.ofText f.text

/-- A package: its import path, its name and its files in the order of their paths. -/
structure Package where
  path : String
  name : String
  files : List PackageFile
deriving DecidableEq, Repr, Inhabited

/-- A file within its package, where names are looked up. -/
structure Scope where
  package : Package
  file : PackageFile
deriving DecidableEq, Repr, Inhabited

/-- A declared type in its place. -/
structure Declared where
  package : Package
  file : PackageFile
  spec : TypeSpec
deriving DecidableEq, Repr, Inhabited

namespace Declared

/-- Where the names of the declaration are looked up. -/
def scope (d : Declared) : Scope :=
  ⟨d.package, d.file⟩

/-- The name of a declared type. -/
def name (d : Declared) : String :=
  d.spec.name

/-- The name with the import path of the package, `path.Name`. -/
def qualifiedName (d : Declared) : String :=
  d.package.path ++ "." ++ d.spec.name

end Declared

namespace Package

/-- Every declared type, by file and then in source order. -/
def typeDecls (p : Package) : List Declared :=
  p.files.flatMap fun file => file.source.typeSpecs.map fun spec => ⟨p, file, spec⟩

/-- The names of the declared types with their places: a file, and a declaration among its types. -/
def typePlaces (p : Package) : List (String × Nat × Nat) :=
  p.files.zipIdx.flatMap fun file =>
    file.1.source.typeSpecs.zipIdx.map fun spec => (spec.1.name, file.2, spec.2)

/-- Notes a name with its place, unless the name was noted before. -/
def note (table : List (String × Nat × Nat)) (entry : String × Nat × Nat) :
    List (String × Nat × Nat) :=
  if table.any (·.1 == entry.1) then table else table ++ [entry]

/-- The names of the declared types, each with one place. -/
def typeTable (p : Package) : List (String × Nat × Nat) :=
  p.typePlaces.foldl note []

/-- The type declared at a place. -/
def declaredAt? (p : Package) (place : Nat × Nat) : Option Declared := do
  let file ← p.files[place.1]?
  let spec ← file.source.typeSpecs[place.2]?
  return ⟨p, file, spec⟩

/-- The type declared under a name. -/
def lookup? (p : Package) (name : String) : Option Declared :=
  (p.typeTable.lookup name).bind p.declaredAt?

theorem lookup_foldl_note (name : String) (table entries : List (String × Nat × Nat)) :
    (entries.foldl note table).lookup name = (table.lookup name).or (entries.lookup name) := by
  induction entries generalizing table with
  | nil => simp
  | cons entry entries ih =>
    rw [List.foldl_cons, ih, note, List.lookup_cons]
    split
    · rename_i hnoted
      cases hlookup : table.lookup name with
      | some place => rfl
      | none =>
        -- the name that was noted is another one
        obtain ⟨found, hmem, hfound⟩ := List.any_eq_true.1 hnoted
        have hne := bne_iff_ne.1 (List.lookup_eq_none_iff.1 hlookup found hmem)
        rw [beq_iff_eq.1 hfound] at hne
        rw [beq_false_of_ne hne]
    · rw [List.lookup_append, Option.or_assoc, List.lookup_cons]
      cases name == entry.1 <;> rfl

/-- At the places of the declared types these types are declared. -/
theorem map_typePlaces (p : Package) :
    p.typePlaces.map (fun entry => (entry.1, p.declaredAt? entry.2))
      = p.typeDecls.map fun decl => (decl.spec.name, some decl) := by
  have hspecs : ∀ (file : PackageFile) (i : Nat), p.files[i]? = some file →
      (file.source.typeSpecs.zipIdx.map fun spec => (spec.1.name, p.declaredAt? (i, spec.2)))
        = file.source.typeSpecs.map fun spec => (spec.name, some ⟨p, file, spec⟩) := by
    intro file i hfile
    conv => rhs; rw [← List.zipIdx_map_fst 0 file.source.typeSpecs, List.map_map]
    refine List.map_congr_left fun spec hspec => ?_
    have hj : file.source.typeSpecs[spec.2]? = some spec.1 := List.mem_zipIdx_iff_getElem?.1 hspec
    simp [declaredAt?, hfile, hj]
  rw [typePlaces, typeDecls, List.map_flatMap, List.map_flatMap]
  conv => rhs; rw [← List.zipIdx_map_fst 0 p.files, List.flatMap_map]
  rw [List.flatMap_def, List.flatMap_def]
  refine congrArg List.flatten (List.map_congr_left fun file hfile => ?_)
  rw [List.map_map, List.map_map]
  exact hspecs file.1 file.2 (List.mem_zipIdx_iff_getElem?.1 hfile)

/-- Of several types declared under a name the first is found. -/
theorem lookup?_eq_find? (p : Package) (name : String) :
    p.lookup? name = p.typeDecls.find? fun decl => decl.spec.name == name := by
  have hfind : ∀ (entries : List (String × Nat × Nat)) (decls : List Declared),
      entries.map (fun entry => (entry.1, p.declaredAt? entry.2))
        = decls.map (fun decl => (decl.spec.name, some decl)) →
      (entries.lookup name).bind p.declaredAt? = decls.find? fun decl => decl.spec.name == name := by
    intro entries
    induction entries with
    | nil =>
      intro decls h
      rw [List.map_eq_nil_iff.1 h.symm]
      rfl
    | cons entry entries ih =>
      intro decls h
      cases decls with
      | nil => cases h
      | cons decl decls =>
        obtain ⟨⟨hname, hdecl⟩, hrest⟩ : (entry.1 = decl.spec.name ∧ _ = some decl) ∧ _ := by
          simpa using h
        rw [List.lookup_cons, List.find?_cons, ← hname, BEq.comm]
        cases entry.1 == name with
        | true => exact hdecl
        | false => exact ih decls hrest
  rw [lookup?, typeTable, lookup_foldl_note, List.lookup_nil, Option.none_or]
  exact hfind _ _ p.map_typePlaces

theorem mem_of_lookup? {p : Package} {name : String} {decl : Declared}
    (h : p.lookup? name = some decl) : decl ∈ p.typeDecls :=
  List.mem_of_find?_eq_some (p.lookup?_eq_find? name ▸ h)

/-- The functions that have this name as the type of their receiver, with their files. -/
def methodsOf (p : Package) (typeName : String) : List (PackageFile × FuncDecl) :=
  p.files.flatMap fun file =>
    (file.source.funcs.filter fun f => f.recv.any (·.base == typeName)).map fun f => (file, f)

/-- The names of the functions that are not methods. -/
def funcNames (p : Package) : List String :=
  p.files.flatMap fun file => (file.source.funcs.filter (·.recv.isNone)).map (·.name)

/-- The names of the types and functions that a package declares. -/
def declaredNames (p : Package) : Names :=
  Names.ofList (p.typeDecls.map (·.name) ++ p.funcNames)

/-- Whether a package declares a type or a function of this name. -/
def declares (p : Package) (name : String) : Bool :=
  (p.typeDecls.map (·.name) ++ p.funcNames).contains name

end Package

/-- A set of packages, and the import paths at which none was found. -/
structure Program where
  /-- The packages in the order of their import paths. -/
  packages : List Package
  /-- The import paths without a package. -/
  missing : Names
deriving DecidableEq, Repr, Inhabited

namespace Program

/-- The program without packages. -/
def empty : Program := ⟨[], []⟩

/-- The package at an import path, if it is loaded. -/
def package? (p : Program) (path : String) : Option Package :=
  p.packages.find? fun pkg => pkg.path == path

/-- Whether the package at an import path is loaded. -/
def isLoaded (p : Program) (path : String) : Bool :=
  p.packages.any fun pkg => pkg.path == path

/-- Whether an import path is known to have no package. -/
def isMissing (p : Program) (path : String) : Bool :=
  p.missing.contains path

/-- The type that a reference names, if its package is loaded and declares it. -/
def lookup? (p : Program) (r : TypeRef) : Option Declared :=
  (p.package? r.package).bind (·.lookup? r.name)

/-- The declared types of all packages. -/
def typeDecls (p : Program) : List Declared :=
  p.packages.flatMap (·.typeDecls)

/-- The qualified names of the declared types. -/
def typeNames (p : Program) : List String :=
  p.typeDecls.map (·.qualifiedName)

/-- Puts a package into its place in the order of import paths. -/
def insertPackage (pkg : Package) : List Package → List Package
  | [] => [pkg]
  | q :: qs => if pkg.path < q.path then pkg :: q :: qs else q :: insertPackage pkg qs

/-- Adds a package. -/
def add (p : Program) (pkg : Package) : Program :=
  { p with packages := insertPackage pkg p.packages }

/-- Adds an import path that has no package. -/
def addMissing (p : Program) (path : String) : Program :=
  { p with missing := Names.insert path p.missing }

theorem isLoaded_add (p : Program) (pkg : Package) (path : String) :
    (p.add pkg).isLoaded path = (pkg.path == path || p.isLoaded path) := by
  have key : ∀ ps : List Package, (insertPackage pkg ps).any (fun q => q.path == path)
      = (pkg.path == path || ps.any fun q => q.path == path) := by
    intro ps
    induction ps with
    | nil => rfl
    | cons q qs ih =>
      simp only [insertPackage]
      split
      · rfl
      · simp only [List.any_cons, ih]
        cases q.path == path <;> cases pkg.path == path <;> rfl
  exact key p.packages

@[simp] theorem isLoaded_addMissing (p : Program) (missing path : String) :
    (p.addMissing missing).isLoaded path = p.isLoaded path := rfl

end Program

end Stubwright
