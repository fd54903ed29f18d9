import Stubwright.ImportPath
import Stubwright.Program

/-!
# What names stand for

A bare name in a file stands for a type of the file's own package, else for one of a package that
the file imports with a dot, else for a predeclared type.  A qualifier stands for the package that
the file imports under that name.

An import without an explicit name binds the name that the package declares or, as long as the
package is not there, the name that its path suggests.
-/

namespace Stubwright

/-- The names of the predeclared types. -/
def predeclared : List String :=
  ["any", "bool", "byte", "comparable", "complex64", "complex128", "error", "float32", "float64",
    "int", "int8", "int16", "int32", "int64", "rune", "string", "uint", "uint8", "uint16", "uint32",
    "uint64", "uintptr"]

def isPredeclared (name : String) : Bool :=
  predeclared.contains name

/-- How many declarations are followed from one to the next before they count as leading
nowhere. -/
def hopLimit : Nat := 32

namespace PackageFile

def dotImports (f : PackageFile) : List String :=
  (f.source.importSpecs.filter fun spec => spec.name == some ".").map (·.path)

/-- The name that a file explicitly gives to the package at an import path. -/
def aliasOf? (f : PackageFile) (path : String) : Option String :=
  (f.source.importSpecs.filter fun spec => spec.path == path).findSome? fun spec =>
    spec.name.filter fun name => name != "_" && name != "."

end PackageFile

namespace Program

/-- The name that the package at an import path declares or is taken to declare. -/
def packageName (p : Program) (path : String) : String :=
  match p.package? path with
  | some pkg => pkg.name
  | none => ImportPath.packageName path

/-- The qualifier that an import with this explicit name and path binds.  A blank import binds none,
and neither does one with a dot. -/
def boundName? (p : Program) (name : Option String) (path : String) : Option String :=
  match name with
  | some name => if name = "_" || name = "." then none else some name
  | none => some (p.packageName path)

def qualifierPath? (p : Program) (file : PackageFile) (qualifier : String) : Option String :=
  (file.source.importSpecs.find? fun spec =>
    p.boundName? spec.name spec.path == some qualifier).map (·.path)

/-- What a bare name stands for. -/
inductive Resolution where
  | declared (decl : Declared)
  | predeclared
  /-- Nothing that is known, such as a type parameter. -/
  | unknown
deriving DecidableEq, Repr

/-- What a bare name stands for in a scope. -/
def resolveName (p : Program) (scope : Scope) (name : String) : Resolution :=
  match scope.package.lookup? name with
  | some decl => .declared decl
  | none =>
    match scope.file.dotImports.findSome? fun path => (p.package? path).bind (·.lookup? name) with
    | some decl => .declared decl
    | none => if isPredeclared name then .predeclared else .unknown

/-- The declared type that a name of another package stands for. -/
def resolveQualified? (p : Program) (scope : Scope) (qualifier name : String) : Option Declared :=
  ((p.qualifierPath? scope.file qualifier).bind p.package?).bind (·.lookup? name)

/-- The declared type that a type expression names, seen through pointers, parentheses and type
arguments. -/
def resolveType? (p : Program) (scope : Scope) : TypeExpr → Option Declared
  | .name name =>
    match p.resolveName scope name with
    | .declared decl => some decl
    | _ => none
  | .qualified package name => p.resolveQualified? scope package name
  | .pointer elem => p.resolveType? scope elem
  | .paren elem => p.resolveType? scope elem
  | .generic base _ => p.resolveType? scope base
  | _ => none

/-- The first declaration that is no alias, at most `hops` declarations on. -/
def followAliasWithin (p : Program) : (hops : Nat) → Declared → Option Declared
  | 0, _ => none
  | hops + 1, decl =>
    if decl.spec.isAlias then
      (p.resolveType? decl.scope decl.spec.type.unparen).bind (p.followAliasWithin hops)
    else some decl

def followAlias? (p : Program) (decl : Declared) : Option Declared :=
  p.followAliasWithin hopLimit decl

end Program

end Stubwright
