import Stubwright.TypeExpr

/-!
# Types in normal form

A type in normal form says which type is meant and no longer how it was written: named types carry
their import paths, and parentheses, names of parameters and groups of parameters or fields are
gone.  Of an interface only the collection of its elements counts, which is why its text has them
in alphabetical order.

`NormalType.text` is the text that identifies a type, and `MethodShape` the signature of a method
reduced to such texts.
-/

namespace Stubwright

mutual

/-- A type in normal form. -/
inductive NormalType where
  /-- A declared type with the import path of its package, or a predeclared or unknown name. -/
  | named (package : Option String) (name : String)
  | generic (base : NormalType) (args : List NormalType)
  | pointer (elem : NormalType)
  | slice (elem : NormalType)
  /-- An array; the length is kept as written. -/
  | array (len : String) (elem : NormalType)
  | map (key value : NormalType)
  | chan (dir : ChanDir) (elem : NormalType)
  | func (sig : NormalSignature)
  | interface (elems : List NormalElement)
  | struct (fields : List NormalField)
  | union (terms : List NormalTerm)

/-- A signature in normal form, one type for each parameter and result. -/
structure NormalSignature where
  /-- The types of the parameters; a variadic one is a slice. -/
  params : List NormalType
  results : List NormalType
  /-- Whether the last parameter takes any number of values. -/
  variadic : Bool

/-- An element of an interface in normal form. -/
inductive NormalElement where
  | method (name : String) (sig : NormalSignature)
  | embed (type : NormalType)

/-- A field in normal form, one for each name. -/
structure NormalField where
  /-- The name of the field; none for an embedded field. -/
  name : Option String
  type : NormalType
  tag : Option String

/-- A term of a union in normal form. -/
structure NormalTerm where
  /-- Whether the term stands for every type with this underlying type. -/
  tilde : Bool
  type : NormalType

end

deriving instance Inhabited, Repr for
  NormalType, NormalSignature, NormalElement, NormalField, NormalTerm

/-! ## Shapes of methods -/

/-- A signature reduced to the texts of its types. -/
structure MethodShape where
  /-- The texts of the parameters; a variadic one is a slice. -/
  params : List String
  results : List String
  /-- Whether the last parameter takes any number of values. -/
  variadic : Bool
deriving DecidableEq, Repr, Inhabited

namespace MethodShape

/-- The text of a slice type as that of a variadic parameter. -/
def spread (param : String) : String :=
  match param.toList with
  | '[' :: ']' :: elem => "..." ++ String.ofList elem
  | _ => param

/-- The parameters as they are shown, the last one spread if it is variadic. -/
def displayedParams (s : MethodShape) : List String :=
  if s.variadic then s.params.dropLast ++ s.params.getLast?.toList.map spread else s.params

/-- The results as they are shown, in parentheses if there are several. -/
def displayedResults (s : MethodShape) : String :=
  match s.results with
  | [] => ""
  | [one] => " " ++ one
  | many => " (" ++ String.intercalate ", " many ++ ")"

/-- The text of a shape. -/
def display (s : MethodShape) : String :=
  "(" ++ String.intercalate ", " s.displayedParams ++ ")" ++ s.displayedResults

end MethodShape

/-! ## Texts -/

/-- The keyword of a channel type with its direction and a space. -/
def ChanDir.keyword : ChanDir → String
  | .both => "chan "
  | .send => "chan<- "
  | .recv => "<-chan "

mutual

/-- The text that identifies a type; the elements of an interface are sorted in it. -/
def NormalType.text : NormalType → String
  | .named none name => name
  | .named (some package) name => package ++ "." ++ name
  | .generic base args => base.text ++ "[" ++ String.intercalate ", " (normalTexts args) ++ "]"
  | .pointer elem => "*" ++ elem.text
  | .slice elem => "[]" ++ elem.text
  | .array len elem => "[" ++ len ++ "]" ++ elem.text
  | .map key value => "map[" ++ key.text ++ "]" ++ value.text
  | .chan dir elem => dir.keyword ++ elem.text
  | .func sig => "func" ++ sig.shape.display
  | .interface elems =>
    "interface\x7b" ++ String.intercalate "; " ((elementTexts elems).mergeSort (· ≤ ·)) ++ "\x7d"
  | .struct fields => "struct\x7b" ++ String.intercalate "; " (fieldTexts fields) ++ "\x7d"
  | .union terms => String.intercalate " | " (termTexts terms)

/-- The texts of types. -/
def normalTexts : List NormalType → List String
  | [] => []
  | t :: ts => t.text :: normalTexts ts

/-- The shape of a signature: the texts of its parts. -/
def NormalSignature.shape : NormalSignature → MethodShape
  | ⟨params, results, variadic⟩ => ⟨normalTexts params, normalTexts results, variadic⟩

/-- The text of an element. -/
def NormalElement.text : NormalElement → String
  | .method name sig => name ++ sig.shape.display
  | .embed type => type.text

def elementTexts : List NormalElement → List String
  | [] => []
  | e :: es => e.text :: elementTexts es

/-- The text of a field. -/
def NormalField.text : NormalField → String
  | ⟨name, type, tag⟩ =>
    (name.map (· ++ " ")).getD "" ++ type.text ++ (tag.map (" " ++ ·)).getD ""

def fieldTexts : List NormalField → List String
  | [] => []
  | f :: fs => f.text :: fieldTexts fs

/-- The text of a term. -/
def NormalTerm.text : NormalTerm → String
  | ⟨tilde, type⟩ => (if tilde then "~" else "") ++ type.text

def termTexts : List NormalTerm → List String
  | [] => []
  | t :: ts => t.text :: termTexts ts

end

end Stubwright
