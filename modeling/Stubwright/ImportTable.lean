import Stubwright.Implementation
import Stubwright.Program.Resolve

/-!
# Imports of a file in the making

The imports that a file has and those that it comes to need.  An import is added once, and under a
name that nothing else in the file uses.
-/

namespace Stubwright

/-- An import of a file in the making. -/
structure ImportEntry where
  /-- The explicit name: an identifier, `_` or `.`. -/
  name : Option String
  path : String
  added : Bool
deriving DecidableEq, Repr, Inhabited

/-- How a file refers to the types of a package. -/
inductive Binding where
  | named (qualifier : String)
  /-- By their bare names, through an import with a dot. -/
  | dot
deriving DecidableEq, Repr

/-- The imports of a file in the making, in order. -/
structure ImportTable where
  entries : List ImportEntry
deriving DecidableEq, Repr, Inhabited

namespace ImportTable

def empty : ImportTable := ⟨[]⟩

def ofFile (file : SourceFile) : ImportTable :=
  ⟨file.importSpecs.map fun spec => ⟨spec.name, spec.path, false⟩⟩

def added (t : ImportTable) : List ImportEntry :=
  t.entries.filter (·.added)

/-- Imports as they are told to a caller. -/
def infos (entries : List ImportEntry) : List ImportInfo :=
  entries.map fun e => ⟨e.name.getD "", e.path⟩

/-- How the file refers to the package at an import path.  A qualifier comes before a dot, and a
blank import does not count. -/
def binding? (t : ImportTable) (p : Program) (path : String) : Option Binding :=
  let here := t.entries.filter fun e => e.path == path
  match here.findSome? fun e => p.boundName? e.name e.path with
  | some qualifier => some (.named qualifier)
  | none => if here.any fun e => e.name == some "." then some .dot else none

def boundPath? (t : ImportTable) (p : Program) (qualifier : String) : Option String :=
  (t.entries.find? fun e => p.boundName? e.name e.path == some qualifier).map (·.path)

/-- Every qualifier that the imports bind. -/
def boundNames (t : ImportTable) (p : Program) : List String :=
  t.entries.filterMap fun e => p.boundName? e.name e.path

/-- Adds an import, unless it is there under this very name. -/
def add (t : ImportTable) (name : Option String) (path : String) : ImportTable :=
  if t.entries.any fun e => e.path == path && e.name == name then t
  else ⟨t.entries ++ [⟨name, path, true⟩]⟩

/-- The first of `base` with `n`, `n + 1`, … behind it that is not taken. -/
def freeNameFrom (base : String) (n : Nat) (taken : List String) : String :=
  let candidate := base ++ toString n
  if _mem : candidate ∈ taken then freeNameFrom base (n + 1) (Names.without candidate taken)
  else candidate
termination_by taken.length
decreasing_by exact Names.length_without_lt _mem

def freeName (preferred : String) (taken : List String) : String :=
  if preferred ∈ taken then freeNameFrom preferred 2 taken else preferred

/-- Imports a package under the preferred name or one made from it, and gives the qualifier that is
bound.  The name is spelled out where it is not the package's own or was `explicit` already. -/
def bind (t : ImportTable) (p : Program) (reserved : Names) (path preferred : String)
    (explicit : Bool) : String × ImportTable :=
  let qualifier := freeName preferred (reserved ++ t.boundNames p)
  let name := if explicit || qualifier != p.packageName path then some qualifier else none
  (qualifier, t.add name path)

end ImportTable

end Stubwright
