import Stubwright.Build.Constraint
import Stubwright.Build.FileName
import Stubwright.Host
import Stubwright.ModFile.Parse
import Stubwright.Program.Source
import Stubwright.SourceFile.Parse

/-!
# Packages in a file system

Where the packages of a workspace are: in the main module, whose module file is the nearest one at
or above the workspace; in the directories and modules that replace others; among the packages that
the main module carries along; in the standard library; and in the module cache.  The first place
that has a file to build wins.
-/

namespace Stubwright

structure SearchPath where
  /-- The directory from which the main module is looked for. -/
  workspace : String
  /-- The root of the language's installation. -/
  goroot : Option String
  /-- The root of the module cache. -/
  modcache : Option String
deriving DecidableEq, Repr, Inhabited

structure MainModule where
  /-- The directory that holds its module file. -/
  root : String
  modFile : ModFile
deriving DecidableEq, Repr, Inhabited

/-- A workspace whose main module is known. -/
structure Workspace where
  /-- Where to look for packages. -/
  places : SearchPath
  main : Option MainModule
deriving DecidableEq, Repr, Inhabited

namespace Host

/-- The nearest module file at or above a directory. -/
def findModFile? (h : Host) (start : String) : Option String :=
  ((Path.ancestors start).map fun dir => Path.join dir "go.mod").find? h.isFile

def loadModFile (h : Host) (path : String) : Except ModFile.Error ModFile :=
  match h.readText path with
  | .error e => .error (.unreadable e)
  | .ok text => ModFile.parse text

/-- Whether a directory has a file to build. -/
def hasSources (h : Host) (dir : String) : Bool :=
  match h.readDir dir with
  | .error _ => false
  | .ok entries => entries.any fun
    | (name, .file ..) => Build.keepsFile name
    | _ => false

/-- The files of a directory that are to be built, in the order of their names. -/
def sources (h : Host) (dir : String) : List SourceUnit :=
  match h.readDir dir with
  | .error _ => []
  | .ok entries => entries.filterMap fun
    | (name, .file bytes _) =>
      if Build.keepsFile name then
        match decode? bytes with
        | some text => if Build.allows text.toList then some ⟨Path.join dir name, text⟩ else none
        | none => none
      else none
    | _ => none

/-- Whether a directory is left out when a pattern is expanded. -/
def isSkipped (h : Host) (place : Place) : Bool :=
  match place.getLast? with
  | none => false
  | some name =>
    name.toList.head? == some '.' || name.toList.head? == some '_' || name == "testdata"
      || name == "vendor" || match h.entry? (place ++ ["go.mod"]) with
        | some (.file ..) => true
        | _ => false

/-- The names that lead from a directory to itself and to the directories below it that are not
left out. -/
def directoriesBelow (h : Host) (root : Place) : List (List String) :=
  [] :: h.entries.filterMap fun
    | (place, .dir _) =>
      let rest := place.drop root.length
      let onTheWay := (List.range rest.length).map fun n => root ++ rest.take (n + 1)
      if root.isPrefixOf place && !rest.isEmpty && !onTheWay.any h.isSkipped then some rest else none
    | _ => none

/-- Every import path that some source file names. -/
def importPaths (h : Host) : List String :=
  h.entries.flatMap fun
    | (place, .file bytes _) =>
      if place.getLast?.any Build.keepsFile then
        match (decode? bytes).map SourceFile.parse with
        | some (.ok file) => file.importSpecs.map (·.path)
        | _ => []
      else []
    | _ => []

end Host

namespace Workspace

/-- Looks for the main module of a workspace. -/
def find (h : Host) (places : SearchPath) : Except ModFile.Error Workspace :=
  match h.findModFile? places.workspace with
  | none => .ok ⟨places, none⟩
  | some path =>
    match h.loadModFile path with
    | .error e => .error e
    | .ok modFile =>
      .ok ⟨places, some ⟨(Host.Path.parent? path).getD places.workspace, modFile⟩⟩

/-- A directory with the elements of an import path appended. -/
def joinRest (dir rest : String) : String :=
  Host.Path.joinAll dir ((ImportPath.elements rest).filter (· != ""))

def cacheDir? (w : Workspace) (module version : String) : Option String :=
  w.places.modcache.map fun cache =>
    Host.Path.join cache (ImportPath.escape module ++ "@" ++ ImportPath.escape version)

/-- The directories that may hold a package because of the main module itself: its own, that of a
replacement, and the one among the packages it carries along. -/
def ownDirs (w : Workspace) (main : MainModule) (path : String) : List String :=
  let inside := (ImportPath.rest? path main.modFile.module).toList.map (joinRest main.root)
  let replaced := match main.modFile.replacementFor? path with
    | none => []
    | some (replace, rest) =>
      match replace.target with
      | .dir dir => [joinRest (Host.Path.join main.root dir) rest]
      | .module module version => (w.cacheDir? module version).toList.map (joinRest · rest)
  inside ++ replaced ++ [joinRest (Host.Path.join main.root "vendor") path]

/-- The directories that may hold a package because the main module requires its module. -/
def requiredDirs (w : Workspace) (main : MainModule) (path : String) : List String :=
  match main.modFile.requireFor? path with
  | none => []
  | some (require, rest) =>
    (w.cacheDir? require.path require.version).toList.map (joinRest · rest)

/-- The directories that may hold a package, in the order they are tried. -/
def candidateDirs (w : Workspace) (path : String) : List String :=
  let standard := if ImportPath.isStandard path then
      w.places.goroot.toList.map fun goroot => joinRest (Host.Path.join goroot "src") path
    else []
  match w.main with
  | none => standard
  | some main => w.ownDirs main path ++ standard ++ w.requiredDirs main path

/-- The directory that holds a package. -/
def packageDir? (w : Workspace) (h : Host) (path : String) : Option String :=
  (w.candidateDirs path).find? h.hasSources

def readPackage (w : Workspace) (h : Host) (path : String) : Option (List SourceUnit) :=
  match w.packageDir? h path with
  | none => none
  | some dir =>
    match h.sources dir with
    | [] => none
    | units => some units

/-- Whether a pattern starts at the workspace. -/
def isRelative (pattern : String) : Bool :=
  pattern == "." || "./".toList.isPrefixOf pattern.toList || "../".toList.isPrefixOf pattern.toList

/-- The names that lead from the root of a module to a place below it.  A module in the working
directory, found without a name for it, counts as having its root above everything. -/
def namesBelow? (h : Host) (root : String) (place : Host.Place) : Option (List String) :=
  match h.locate root with
  | .ok top => if top.isPrefixOf place then some (place.drop top.length) else none
  | .error _ => if root = "" then some ("/" :: place) else none

/-- A pattern that starts at the workspace as one over import paths of the main module.  It stays
as it is if it leads out of the module or nowhere. -/
def absolutePattern (w : Workspace) (h : Host) (pattern : String) : String :=
  match w.main with
  | none => pattern
  | some main =>
    if isRelative pattern then
      let (dir, suffix) := match wildcardBase? pattern with
        | some base => (base, "/...")
        | none => (pattern, "")
      match h.locate (Host.Path.join w.places.workspace dir) with
      | .error _ => pattern
      | .ok place =>
        match namesBelow? h main.root place with
        | some names => String.join (main.modFile.module :: names.map ("/" ++ ·)) ++ suffix
        | none => pattern
    else pattern

/-- The import paths that a pattern stands for. -/
def expandPattern (w : Workspace) (h : Host) (pattern : String) : List String :=
  let pattern := w.absolutePattern h pattern
  match wildcardBase? pattern with
  | none => [pattern]
  | some base =>
    match (w.candidateDirs base).find? h.isDir with
    | none => []
    | some dir =>
      match h.locate dir with
      | .error _ => []
      | .ok root =>
        let found := (h.directoriesBelow root).filter fun rest =>
          h.hasSources ("/" ++ String.intercalate "/" (root ++ rest))
        (found.map fun rest => String.join (base :: rest.map ("/" ++ ·))).mergeSort (· ≤ ·)

def toSource (w : Workspace) (h : Host) : PackageSource where
  read := w.readPackage h
  expand := w.expandPattern h
  mainModule := w.main.map (·.modFile.module)
  reach := h.importPaths

end Workspace

end Stubwright
