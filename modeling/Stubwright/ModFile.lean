import Stubwright.Host.Failure
import Stubwright.ImportPath
import Stubwright.Text.Bytes

/-!
# Module files

A module file names a module, the versions of the modules it requires, and replacements for some of
them.  Only what decides where packages live is kept.  `requireFor?` and `replacementFor?` find the
directive that covers an import path: the one with the longest module path, and of equally long
ones the last.
-/

namespace Stubwright

structure Require where
  path : String
  version : String
deriving DecidableEq, Repr, Inhabited

inductive Replace.Target where
  /-- A directory, absolute or relative to the root of the main module. -/
  | dir (path : String)
  | module (path version : String)
deriving DecidableEq, Repr, Inhabited

structure Replace where
  path : String
  version : Option String
  target : Replace.Target
deriving DecidableEq, Repr, Inhabited

/-- What a module file says of where packages are. -/
structure ModFile where
  module : String
  goVersion : Option String
  requires : List Require
  replaces : List Replace
deriving DecidableEq, Repr, Inhabited

namespace ModFile

def lastGreatest {α : Type} (measure : α → Nat) (items : List α) : Option α :=
  items.foldl (fun best item => match best with
    | none => some item
    | some b => if measure b ≤ measure item then some item else some b) none

def covering {α : Type} (path : α → String) (items : List α) (importPath : String) :
    List (α × String) :=
  items.filterMap fun item => (ImportPath.rest? importPath (path item)).map fun rest => (item, rest)

def requireFor? (m : ModFile) (importPath : String) : Option (Require × String) :=
  lastGreatest (fun (r, _) => r.path.utf8ByteSize) (covering Require.path m.requires importPath)

def applies (m : ModFile) (r : Replace) : Bool :=
  match r.version with
  | none => true
  | some version => m.requires.any fun req => req.path == r.path && req.version == version

def replacementFor? (m : ModFile) (importPath : String) : Option (Replace × String) :=
  lastGreatest (fun (r, _) => r.path.utf8ByteSize)
    ((covering Replace.path m.replaces importPath).filter fun (r, _) => m.applies r)

/-! ## Errors -/

/-- What is wrong with a line of a module file. -/
inductive LineFault where
  /-- A quoted field is not closed, or something else cannot be read as a field. -/
  | quote
  /-- A directive has the wrong number of fields. -/
  | usage (verb form : String)
  | missingArrow (verb : String)
  /-- A replacement names a module without a version. -/
  | needsDirectory (verb : String)
  | unterminatedBlock (verb : String)
deriving DecidableEq, Repr

def LineFault.message : LineFault → String
  | .quote => "malformed quoted string"
  | .usage verb form => verb ++ ": usage: " ++ form
  | .missingArrow verb => verb ++ ": missing '=>'"
  | .needsDirectory verb =>
    verb ++ ": replacement module without version must be a directory path"
  | .unterminatedBlock verb => verb ++ ": unterminated block"

/-- Why a module file cannot be used. -/
inductive Error where
  | malformed (line : Nat) (fault : LineFault)
  | noModule
  /-- The file cannot be read. -/
  | unreadable (failure : Host.Failure)
deriving DecidableEq, Repr

def Error.message : Error → String
  | .malformed line fault => "go.mod:" ++ toString line ++ ": " ++ fault.message
  | .noModule => "go.mod: no module directive"
  | .unreadable failure => "IO error reading go.mod: " ++ failure.message

end ModFile

end Stubwright
