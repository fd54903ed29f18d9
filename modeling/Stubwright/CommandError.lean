import Stubwright.Json
import Stubwright.StubError

/-!
# Errors as a caller sees them

A caller sees an error as an exit code, a message and sometimes details.  Every cause that the
library knows becomes one of these errors; a few causes that differ inside look alike from outside.
-/

namespace Stubwright

/-- The classes of errors that have an exit code of their own. -/
inductive ErrorClass where
  /-- The request is malformed. -/
  | invalidArguments
  /-- Something that was named cannot be found or read. -/
  | resolution
  /-- The result cannot be written. -/
  | apply
  | signatureMismatch
  /-- The generated file is not well formed. -/
  | formatFailed
  /-- Something that cannot happen did. -/
  | internal
deriving DecidableEq, Repr

def ErrorClass.code : ErrorClass → Nat
  | .invalidArguments => 2
  | .resolution => 3
  | .apply => 4
  | .signatureMismatch => 5
  | .formatFailed => 6
  | .internal => 10

/-- An error as it is told to a caller. -/
inductive CommandError where
  /-- The request is malformed. -/
  | invalidArguments (text : String) (details : Option Json)
  | declarationNotFound (package name : String)
  | dependencyMissing (package interface : String)
  | packageNotFound (path : String)
  | notAnInterface (name : String)
  /-- An interface cannot be taken apart. -/
  | invalidInterface (name reason : String)
  | signatureMismatch (name want have_ : String)
  /-- The generated file is not well formed. -/
  | formatFailed (text : String) (draft : Option Implementation)
  /-- A file cannot be read as what it should be. -/
  | badSource (file : String) (line col : Nat) (text : String)
  /-- The result cannot be written. -/
  | apply (text : String) (file : Option String)
  /-- Something that cannot happen did. -/
  | internal (text : String)
deriving Inhabited

namespace Json

def ofImport (i : ImportInfo) : Json :=
  .obj [("name", .str i.name), ("path", .str i.path)]

def ofImplementation (i : Implementation) : Json :=
  .obj [("file", .str i.file), ("file_content", .str i.fileContent), ("methods", .str i.methods),
    ("added_imports", .arr (i.addedImports.map ofImport)),
    ("all_imports", .arr (i.allImports.map ofImport))]

end Json

namespace CommandError

def errorClass : CommandError → ErrorClass
  | .invalidArguments .. => .invalidArguments
  | .declarationNotFound .. => .resolution
  | .dependencyMissing .. => .resolution
  | .packageNotFound .. => .resolution
  | .notAnInterface .. => .resolution
  | .invalidInterface .. => .resolution
  | .badSource .. => .resolution
  | .signatureMismatch .. => .signatureMismatch
  | .formatFailed .. => .formatFailed
  | .apply .. => .apply
  | .internal .. => .internal

def code (e : CommandError) : Nat :=
  e.errorClass.code

def message : CommandError → String
  | .invalidArguments text _ => "invalid arguments: " ++ text
  | .declarationNotFound package name => "declaration not found: " ++ package ++ "." ++ name
  | .dependencyMissing package interface =>
    "package " ++ package ++ " needed by " ++ interface ++ " is not loaded"
  | .packageNotFound path => "package not found: " ++ path
  | .notAnInterface name => name ++ " is not an interface"
  | .invalidInterface name reason => "invalid interface " ++ name ++ ": " ++ reason
  | .signatureMismatch name want have_ =>
    "method " ++ name ++ " has signature " ++ have_ ++ ", interface wants " ++ want
  | .formatFailed text _ => "format failed: " ++ text
  | .badSource file line col text =>
    "syntax error at " ++ file ++ ":" ++ toString line ++ ":" ++ toString col ++ ": " ++ text
  | .apply text _ => "apply error: " ++ text
  | .internal text => "internal error: " ++ text

/-- The details of an error, with the fields of every object in alphabetical order. -/
def details? : CommandError → Option Json
  | .invalidArguments _ details => details.map Json.sortKeys
  | .signatureMismatch name want have_ =>
    some (.obj [("have", .str have_), ("method", .str name), ("want", .str want)])
  | .badSource file line col _ =>
    some (.obj [("location", .obj [("col", .num col), ("file", .str file), ("line", .num line)])])
  | .formatFailed _ (some draft) =>
    some (Json.sortKeys (.obj [("partial", .ofImplementation draft)]))
  | .apply _ (some file) => some (.obj [("file", .str file)])
  | _ => none

/-- A refused batch of edits as a caller sees it. -/
def ofEdit (e : Edit.Error) : CommandError :=
  .internal ("edit error: " ++ e.message)

/-- A failure to load as a caller sees it. -/
def ofLoad : LoadError → CommandError
  | .packageNotFound path => .packageNotFound path
  | .badSource file error => .badSource file error.line error.col error.message
  | .badModule (.malformed line fault) => .badSource "go.mod" line 1 fault.message
  | .badModule .noModule => .badSource "go.mod" 1 1 "no module directive"
  | .badModule (.unreadable failure) => .internal ("cannot read go.mod: " ++ failure.message)

/-- An error of the library as a caller sees it. -/
def ofStub : StubError → CommandError
  | .declarationNotFound package name => .declarationNotFound package name
  | .dependencyMissing package interface => .dependencyMissing package interface
  | .signatureMismatch name want have_ => .signatureMismatch name want have_
  | .format error draft => .formatFailed error.display (some draft)
  | .notAnInterface name => .notAnInterface name
  | .invalidInterface name fault => .invalidInterface name fault.message
  | .unresolvedQualifier qualifier file =>
    .invalidInterface file ("undefined package qualifier " ++ qualifier)
  | .invalidArguments fault => .invalidArguments fault.message none
  | .apply fault file => .apply fault.message (some file)
  | .load error => ofLoad error
  | .internal broken => .internal broken.message

end CommandError

end Stubwright
