import Stubwright.Host.Failure
import Stubwright.Host.Path

/-!
# A file system

The directories and files that a command sees, with its working directory.  Places are given by the
names that lead to them from the root, so that two paths to one place can be told to be so; paths
are followed as the operating system does, step by step.
-/

namespace Stubwright

namespace Host

/-- A place: the names that lead to it from the root. -/
abbrev Place := List String

/-- What stands at a place. -/
inductive Entry where
  | file (bytes : List UInt8) (mode : Nat)
  | dir (mode : Nat)
deriving DecidableEq, Repr, Inhabited

def fileMode : Nat := 0o644

/-- The permissions of a new directory or program. -/
def programMode : Nat := 0o755

end Host

/-- The directories and files that a command sees. -/
structure Host where
  /-- The working directory. -/
  cwd : Host.Place
  entries : List (Host.Place × Host.Entry)
deriving DecidableEq, Repr, Inhabited

namespace Host

/-! ## Looking -/

def entry? (h : Host) (place : Place) : Option Entry :=
  if place = [] then some (.dir programMode) else h.entries.lookup place

/-- The most bytes that a name may have. -/
def nameLimit : Nat := 255

/-- The most bytes that a path may have. -/
def pathLimit : Nat := 4095

/-- Takes the steps of a path from a directory. -/
def walk (h : Host) (here : Place) : List String → Except Failure Place
  | [] => .ok here
  | step :: steps =>
    if step = "." then h.walk here steps
    else if step = ".." then h.walk here.dropLast steps
    else if nameLimit < step.utf8ByteSize then .error .nameTooLong
    else
      let there := here ++ [step]
      match h.entry? there with
      | none => .error .notFound
      | some (.dir _) => h.walk there steps
      | some (.file ..) => if steps.isEmpty then .ok there else .error .notDirectory

def locate (h : Host) (path : String) : Except Failure Place :=
  if path.toList.contains '\x00' then .error .zeroByte
  else if pathLimit < path.utf8ByteSize then .error .nameTooLong
  else if path = "" then .error .notFound
  else h.walk (if Path.isAbsolute path then [] else h.cwd) (Path.steps path)

def isFile (h : Host) (path : String) : Bool :=
  match h.locate path with
  | .ok place => match h.entry? place with
    | some (.file ..) => true
    | _ => false
  | .error _ => false

def isDir (h : Host) (path : String) : Bool :=
  match h.locate path with
  | .ok place => match h.entry? place with
    | some (.dir _) => true
    | _ => false
  | .error _ => false

def mode? (h : Host) (path : String) : Option Nat :=
  match h.locate path with
  | .ok place => (h.entry? place).map fun
    | .file _ mode => mode
    | .dir mode => mode
  | .error _ => none

def read (h : Host) (path : String) : Except Failure (List UInt8) :=
  match h.locate path with
  | .error e => .error e
  | .ok place =>
    match h.entry? place with
    | some (.file bytes _) => .ok bytes
    | some (.dir _) => .error .isDirectory
    | none => .error .notFound

/-- The text that bytes encode. -/
def decode? (bytes : List UInt8) : Option String :=
  String.fromUTF8? ⟨bytes.toArray⟩

def encode (text : String) : List UInt8 :=
  text.toUTF8.toList

def readText (h : Host) (path : String) : Except Failure String :=
  match h.read path with
  | .error e => .error e
  | .ok bytes =>
    match decode? bytes with
    | some text => .ok text
    | none => .error .notText

/-- The names in the directory at a place, in alphabetical order, with what stands there. -/
def children (h : Host) (place : Place) : List (String × Entry) :=
  let found := h.entries.filterMap fun (p, e) =>
    match p.getLast? with
    | some name => if p.dropLast = place then some (name, e) else none
    | none => none
  found.mergeSort fun a b => a.1 ≤ b.1

def readDir (h : Host) (path : String) : Except Failure (List (String × Entry)) :=
  match h.locate path with
  | .error e => .error e
  | .ok place =>
    match h.entry? place with
    | some (.dir _) => .ok (h.children place)
    | some (.file ..) => .error .notDirectory
    | none => .error .notFound

/-! ## Changing -/

def setAt (place : Place) (entry : Entry) : List (Place × Entry) → List (Place × Entry)
  | [] => [(place, entry)]
  | (p, e) :: rest => if p = place then (place, entry) :: rest else (p, e) :: setAt place entry rest

/-- Puts an entry at a place, in the stead of what stands there. -/
def set (h : Host) (place : Place) (entry : Entry) : Host :=
  { h with entries := setAt place entry h.entries }

/-- Makes the directories that lead to a place from a directory, as far as they are not there. -/
def makeDirs (h : Host) (here : Place) : List String → Host
  | [] => h
  | name :: names =>
    let there := here ++ [name]
    let h := match h.entry? there with
      | some _ => h
      | none => h.set there (.dir programMode)
    h.makeDirs there names

/-- Puts an entry at a place and makes the directories above it. -/
def put (h : Host) (place : Place) (entry : Entry) : Host :=
  (h.makeDirs [] place.dropLast).set place entry

/-- Gives a file new bytes; a file that is there keeps its permissions. -/
def write (h : Host) (place : Place) (bytes : List UInt8) : Host :=
  match h.entry? place with
  | some (.file _ mode) => h.set place (.file bytes mode)
  | _ => h.put place (.file bytes fileMode)

/-- Gives what stands at a place other permissions. -/
def setMode (h : Host) (place : Place) (mode : Nat) : Host :=
  match h.entry? place with
  | some (.file bytes _) => h.set place (.file bytes mode)
  | some (.dir _) => h.set place (.dir mode)
  | none => h

/-- The place that a path would lead to if nothing were in the way, by its names alone. -/
def nominalPlace (h : Host) (path : String) : Place :=
  (Path.steps path).foldl (fun here step =>
    if step = "." then here else if step = ".." then here.dropLast else here ++ [step])
    (if Path.isAbsolute path then [] else h.cwd)

end Host

end Stubwright
