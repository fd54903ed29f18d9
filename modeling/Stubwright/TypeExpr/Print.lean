import Stubwright.TypeExpr

/-!
# Printing type expressions

Types print on one line, except that a non-empty interface or struct literal opens a block whose
elements stand on lines of their own, one tab deeper than the line the literal opens on.  The
fields of a struct align: types start in one column, and so do tags behind types that fit on a
line.
-/

namespace Stubwright

/-- A line break followed by a number of tabs. -/
def lineBreak (indent : Nat) : String :=
  String.ofList ('\n' :: List.replicate indent '\t')

def spaces (n : Nat) : String :=
  String.ofList (List.replicate n ' ')

/-- The keyword and arrow of a channel type, with the space before its element. -/
def ChanDir.opening : ChanDir → String
  | .both => "chan "
  | .send => "chan<- "
  | .recv => "<-chan "

/-- Whether the element of a channel has to stand in parentheses: an arrow at its start would
otherwise be read with the keyword before it. -/
def TypeExpr.needsParens (dir : ChanDir) : TypeExpr → Bool
  | .chan .recv _ => dir != .recv
  | _ => false

/-- A row of a struct literal: names, printed type, and tag. -/
structure FieldRow where
  /-- The names of the group, joined; empty for an embedded field. -/
  names : String
  type : String
  tag : Option String

namespace FieldRow

def nameWidth (rows : List FieldRow) : Nat :=
  (rows.map (·.names.length)).foldl max 0

/-- The names of a row, filled up to the start of the column of types. -/
def lead (nameWidth : Nat) (row : FieldRow) : String :=
  if row.names.isEmpty then "" else row.names ++ spaces (nameWidth - row.names.length + 1)

/-- The width of the columns of names and types together, over the rows that have a tag and a type
on a single line. -/
def typeWidth (rows : List FieldRow) : Nat :=
  let width := nameWidth rows
  let tagged := rows.filter fun row => row.tag.isSome && !row.type.toList.contains '\n'
  (tagged.map fun row => (lead width row).length + row.type.length).foldl max 0

/-- A row with its columns aligned. -/
def render (nameWidth typeWidth : Nat) (row : FieldRow) : String :=
  let used := lead nameWidth row ++ row.type
  match row.tag with
  | none => used
  | some tag => used ++ spaces (typeWidth - used.length + 1) ++ tag

def renderAll (indent : Nat) (rows : List FieldRow) : String :=
  String.join (rows.map fun row =>
    lineBreak indent ++ render (nameWidth rows) (typeWidth rows) row)

end FieldRow

/-- The names of a group of parameters before their type. -/
def paramNames (names : List String) : String :=
  if names.isEmpty then "" else ", ".intercalate names ++ " "

mutual

/-- Prints a type on a line that is indented by `indent` tabs. -/
def TypeExpr.print (indent : Nat) : TypeExpr → String
  | .name n => n
  | .qualified p n => p ++ "." ++ n
  | .generic base args => base.print indent ++ "[" ++ printTypes indent args ++ "]"
  | .pointer elem => "*" ++ elem.print indent
  | .slice elem => "[]" ++ elem.print indent
  | .array len elem => "[" ++ len ++ "]" ++ elem.print indent
  | .map key value => "map[" ++ key.print indent ++ "]" ++ value.print indent
  | .chan dir elem =>
    if elem.needsParens dir then dir.opening ++ "(" ++ elem.print indent ++ ")"
    else dir.opening ++ elem.print indent
  | .func sig => "func" ++ sig.print indent
  | .interface elems =>
    if elems.isEmpty then "interface\x7b\x7d"
    else "interface \x7b" ++ printElements (indent + 1) elems ++ lineBreak indent ++ "\x7d"
  | .struct fields =>
    if fields.isEmpty then "struct\x7b\x7d"
    else "struct \x7b" ++ FieldRow.renderAll (indent + 1) (fieldRows (indent + 1) fields)
      ++ lineBreak indent ++ "\x7d"
  | .paren elem => "(" ++ elem.print indent ++ ")"
  | .ellipsis elem => "..." ++ elem.print indent
  | .union terms => printTerms indent terms

/-- Prints types with a comma between neighbours. -/
def printTypes (indent : Nat) : List TypeExpr → String
  | [] => ""
  | [t] => t.print indent
  | t :: ts => t.print indent ++ ", " ++ printTypes indent ts

/-- Prints a signature as it follows the name of a method.  A single result without a name stands
without parentheses. -/
def Signature.print (indent : Nat) : Signature → String
  | ⟨params, []⟩ => "(" ++ printParams indent params ++ ")"
  | ⟨params, [⟨[], type⟩]⟩ => "(" ++ printParams indent params ++ ") " ++ type.print indent
  | ⟨params, results⟩ =>
    "(" ++ printParams indent params ++ ") (" ++ printParams indent results ++ ")"

/-- Prints groups of parameters with a comma between neighbours. -/
def printParams (indent : Nat) : List Param → String
  | [] => ""
  | [p] => p.print indent
  | p :: ps => p.print indent ++ ", " ++ printParams indent ps

def Param.print (indent : Nat) : Param → String
  | ⟨names, type⟩ => paramNames names ++ type.print indent

/-- Prints the elements of an interface, each on a line of its own. -/
def printElements (indent : Nat) : List Element → String
  | [] => ""
  | e :: es => lineBreak indent ++ e.print indent ++ printElements indent es

def Element.print (indent : Nat) : Element → String
  | .method name sig => name ++ sig.print indent
  | .embed type => type.print indent

def fieldRows (indent : Nat) : List Field → List FieldRow
  | [] => []
  | f :: fs => f.row indent :: fieldRows indent fs

def Field.row (indent : Nat) : Field → FieldRow
  | ⟨names, type, tag⟩ => ⟨", ".intercalate names, type.print indent, tag⟩

/-- Prints the terms of a union with a bar between neighbours. -/
def printTerms (indent : Nat) : List Term → String
  | [] => ""
  | [t] => t.print indent
  | t :: ts => t.print indent ++ " | " ++ printTerms indent ts

def Term.print (indent : Nat) : Term → String
  | ⟨tilde, type⟩ => (if tilde then "~" else "") ++ type.print indent

end

/-- A type printed at the left margin. -/
def TypeExpr.toText (t : TypeExpr) : String :=
  t.print 0

/-- A signature printed at the left margin. -/
def Signature.toText (s : Signature) : String :=
  s.print 0

end Stubwright
