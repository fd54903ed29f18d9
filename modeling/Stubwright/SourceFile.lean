import Stubwright.Span
import Stubwright.TypeExpr

/-!
# Source files

A source file is read at the level of its declarations: the package clause, the imports, the
declared types with their full type expressions, and the functions with their signatures.  Bodies
of functions and declarations of variables and constants are kept only as the ranges they cover.
-/

namespace Stubwright

/-- An import. -/
structure ImportSpec where
  /-- The explicit name: an identifier, `_` or `.`. -/
  name : Option String
  /-- The import path, without its quotes. -/
  path : String
  /-- From the name, or else the path, through the path. -/
  span : Span
deriving DecidableEq, Repr, Inhabited

/-- An import declaration, of one package or of a group in parentheses. -/
structure ImportDecl where
  /-- From the keyword through the last package or the closing parenthesis. -/
  span : Span
  lparen : Option Span
  /-- The closing parenthesis of a group. -/
  rparen : Option Span
  /-- The imported packages in source order. -/
  specs : List ImportSpec
deriving DecidableEq, Repr, Inhabited

structure TypeParam where
  names : List String
  constraint : TypeExpr
deriving DecidableEq, Repr, Inhabited

/-- A declared type. -/
structure TypeSpec where
  name : String
  /-- From the name through the type. -/
  span : Span
  typeParams : List TypeParam
  /-- Whether the name stands for the type itself, as in `type A = B`. -/
  isAlias : Bool
  type : TypeExpr
deriving DecidableEq, Repr, Inhabited

structure Receiver where
  name : Option String
  pointer : Bool
  /-- The name of the type the method belongs to. -/
  base : String
  typeArgs : List String
deriving DecidableEq, Repr, Inhabited

/-- A declared function; it is a method if it has a receiver. -/
structure FuncDecl where
  recv : Option Receiver
  name : String
  typeParams : List TypeParam
  sig : Signature
  /-- The range of the body, braces included. -/
  body : Option Span
  /-- From the keyword through the body or the signature. -/
  span : Span
deriving DecidableEq, Repr, Inhabited

/-- A top-level declaration other than an import. -/
inductive Decl where
  /-- Declared types, one or a group in parentheses. -/
  | types (span : Span) (specs : List TypeSpec)
  /-- A function or a method. -/
  | func (decl : FuncDecl)
  /-- Variables or constants. -/
  | value (span : Span)
deriving DecidableEq, Repr, Inhabited

/-- A source file: its package, its imports and its other declarations. -/
structure SourceFile where
  package : String
  packageSpan : Span
  imports : List ImportDecl
  decls : List Decl
deriving DecidableEq, Repr, Inhabited

namespace SourceFile

/-- Every imported package, over all import declarations. -/
def importSpecs (f : SourceFile) : List ImportSpec :=
  f.imports.flatMap (·.specs)

/-- Every declared type, over all declarations. -/
def typeSpecs (f : SourceFile) : List TypeSpec :=
  f.decls.flatMap fun
    | .types _ specs => specs
    | _ => []

def funcs (f : SourceFile) : List FuncDecl :=
  f.decls.filterMap fun
    | .func decl => some decl
    | _ => none

end SourceFile

def TypeSpec.typeParamNames (s : TypeSpec) : List String :=
  s.typeParams.flatMap (·.names)

end Stubwright
