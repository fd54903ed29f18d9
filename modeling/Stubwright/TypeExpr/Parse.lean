import Stubwright.Token.Cursor
import Stubwright.TypeExpr

/-!
# Reading types

A type is read by its first token.  Two spellings need a look ahead.  In a list of parameters and
in a struct, a name before a bracket may be an instantiated type, `Name[T]`, or a name followed by
an array or slice type, `name [N]T`; the first reading is tried and kept when the entry ends right
behind it.  In a declaration a bracket behind the name may open type parameters or the length of an
array, see `SourceFile`.

Every rule takes the reader of nested types as an argument, and `typeWithin` ties the knot at a
depth of nesting, which the number of tokens bounds.
-/

namespace Stubwright

namespace Parser

/-! ## Parameters -/

/-- An entry of a parameter list before names and types are told apart. -/
inductive ParamEntry where
  /-- A lone identifier: a name or a type, which its neighbours decide. -/
  | bare (name : String)
  | named (name : String) (type : TypeExpr)
  | unnamed (type : TypeExpr)

/-- Whether an entry is a name with a type. -/
def ParamEntry.isNamed : ParamEntry → Bool
  | .named .. => true
  | _ => false

/-- Groups entries where lone identifiers are names, given the names that wait for a type. -/
def groupNamed (waiting : List String) : List ParamEntry → Option (List Param)
  | [] => if waiting.isEmpty then some [] else none
  | .bare name :: entries => groupNamed (waiting ++ [name]) entries
  | .named name type :: entries =>
    (groupNamed [] entries).map (⟨waiting ++ [name], type⟩ :: ·)
  | .unnamed _ :: _ => none

/-- Groups entries where lone identifiers are types. -/
def groupUnnamed : List ParamEntry → List Param
  | [] => []
  | .bare name :: entries => Param.unnamed (.name name) :: groupUnnamed entries
  | .named _ type :: entries => Param.unnamed type :: groupUnnamed entries
  | .unnamed type :: entries => Param.unnamed type :: groupUnnamed entries

/-- The parameters that entries stand for, if all of them are named or none is. -/
def groupParams (entries : List ParamEntry) : Option (List Param) :=
  if entries.any (·.isNamed) then groupNamed [] entries else some (groupUnnamed entries)

/-- The type of a parameter, which may be variadic. -/
def paramType (type : Parser TypeExpr) : Parser TypeExpr := do
  if ← eat .ellipsis then return .ellipsis (← type) else type

/-- Whether an entry of a parameter list may end before this kind of token. -/
def endsEntry (kind : Option TokenKind) : Bool :=
  kind == some .comma || kind == some .rParen

/-- An entry of a parameter list; a lone name is kept as such until all entries are read. -/
def paramEntry (type : Parser TypeExpr) : Parser ParamEntry := do
  if !(← isAt .ident) then return .unnamed (← paramType type)
  let second ← peekAt 1
  if endsEntry second then return .bare (← identifier)
  else if second == some .dot then return .unnamed (← type)
  else if second == some .lBrack then
    match ← attempt? type fun _ s => endsEntry (s.rest.head?.map (·.kind)) with
    | some t => return .unnamed t
    | none => return .named (← identifier) (← paramType type)
  else if second == some .ellipsis || second.any TokenKind.startsType then
    return .named (← identifier) (← paramType type)
  else
    let _ ← next?
    failHere (.expected .parameterEnd)

/-- A parameter list in parentheses. -/
def params (type : Parser TypeExpr) : Parser (List Param) := do
  let opening ← expect .lParen
  let entries ← itemsUntil .rParen do
    let entry ← paramEntry type
    return (entry, ← eat .comma)
  let _ ← expect .rParen
  match groupParams entries with
  | some groups => return groups
  | none => failAt opening.span .mixedParameters

/-- Parameters, and results in parentheses or a single one. -/
def signature (type : Parser TypeExpr) : Parser Signature := do
  let ps ← params type
  let ahead ← peek
  if ahead == some .lParen then return ⟨ps, ← params type⟩
  else if ahead.any TokenKind.startsType then return ⟨ps, [Param.unnamed (← type)]⟩
  else return ⟨ps, []⟩

/-! ## Composite types -/

/-- The tokens of the length of an array, up to the bracket that closes it. -/
def lengthTokens (depth : Nat) : List Token → Except Fault (List Token × List Token)
  | [] => .error ⟨.expected (.mark "]") .eof, none⟩
  | t :: ts =>
    let take (depth : Nat) := do
      let (taken, rest) ← lengthTokens depth ts
      return (t :: taken, rest)
    match t.kind with
    | .rBrack => if depth = 0 then .ok ([], t :: ts) else take (depth - 1)
    | .lBrack | .lParen => take (depth + 1)
    | .rParen => take (depth - 1)
    | .semi => .error ⟨.expected (.mark "]") t.found, some t.span⟩
    | _ => take depth

/-- The text of tokens with what stands between them. -/
def writtenText : List Token → String
  | [] => ""
  | t :: ts => t.text ++ String.join (ts.map fun u => u.lead ++ u.text)

/-- The length of an array as written, up to and with the bracket that closes it. -/
def arrayLength : Parser String := do
  let s ← get
  match lengthTokens 0 s.rest with
  | .error fault => throw fault
  | .ok (taken, rest) =>
    set (⟨rest, (taken.getLast?.map Token.stop).getD s.behind⟩ : Cursor)
    let _ ← expect .rBrack
    return writtenText taken

/-- A name, maybe qualified, with type arguments behind it. -/
def typeName (type : Parser TypeExpr) : Parser TypeExpr := do
  let first ← identifier
  let base ← if ← eat .dot then pure (TypeExpr.qualified first (← identifier))
    else pure (TypeExpr.name first)
  if !(← eat .lBrack) then return base
  let args ← itemsUntil .rBrack do
    let arg ← type
    return (arg, ← eat .comma)
  let _ ← expect .rBrack
  if args.isEmpty then failHere (.expected .typeArgument)
  return .generic base args

/-- A type or a union of terms. -/
def constraint (type : Parser TypeExpr) : Parser TypeExpr := do
  let terms ← loop (fun terms => do
    let tilde ← eat .tilde
    let term : Term := ⟨tilde, ← type⟩
    return if ← eat .pipe then .inl (terms ++ [term]) else .inr (terms ++ [term])) []
  match terms with
  | [⟨false, t⟩] => return t
  | _ => return .union terms

/-- An element of an interface: a method or an embedded type. -/
def element (type : Parser TypeExpr) : Parser Element := do
  if (← isAt .ident) && (← peekAt 1) == some .lParen then
    return .method (← identifier) (← signature type)
  else return .embed (← constraint type)

/-- Items in braces, each ended by a semicolon that may be left out before the closing brace; empty
statements between them are skipped. -/
def braced {α : Type} (item : Parser α) : Parser (List α) := do
  let _ ← expect .lBrace
  let items ← itemsUntil .rBrace do
    if ← eat .semi then return (none, true)
    let a ← item
    endOrClose .rBrace
    return (some a, true)
  let _ ← expect .rBrace
  return items.filterMap id

/-- Whether a token of this kind is the tag of a field. -/
def isTag (kind : Option TokenKind) : Bool :=
  kind == some .stringLit || kind == some .rawStringLit

/-- Whether a field ends before a token of this kind. -/
def endsField (kind : Option TokenKind) : Bool :=
  kind == some .semi || kind == some .rBrace || isTag kind

/-- The names of a field and its type. -/
def fieldType (type : Parser TypeExpr) : Parser (List String × TypeExpr) := do
  if ← isAt .star then return ([], ← type)
  if !(← isAt .ident) then failHere (.expected .fieldOrEmbedded)
  let second ← peekAt 1
  if second == some .comma then
    let first ← identifier
    let names ← loop (fun names => do
      if ← eat .comma then return .inl (names ++ [← identifier]) else return .inr names) [first]
    return (names, ← type)
  else if second == some .dot || endsField second then return ([], ← type)
  else if second == some .lBrack then
    match ← attempt? type fun _ s => endsField (s.rest.head?.map (·.kind)) with
    | some t => return ([], t)
    | none => return ([← identifier], ← type)
  else return ([← identifier], ← type)

/-- A field of a struct, with its tag. -/
def field (type : Parser TypeExpr) : Parser Field := do
  let (names, t) ← fieldType type
  if isTag (← peek) then return ⟨names, t, (← next?).map (·.text)⟩
  else return ⟨names, t, none⟩

/-! ## Types -/

/-- A type, given a reader of the types nested in it. -/
def typeStep (type : Parser TypeExpr) : Parser TypeExpr := do
  match ← peek with
  | some .ident => typeName type
  | some .star =>
    let _ ← next?
    return .pointer (← type)
  | some .lBrack =>
    let _ ← next?
    if ← eat .rBrack then return .slice (← type)
    let len ← arrayLength
    return .array len (← type)
  | some .lParen =>
    let _ ← next?
    let t ← type
    let _ ← expect .rParen
    return .paren t
  | some .kwFunc =>
    let _ ← next?
    return .func (← signature type)
  | some .kwMap =>
    let _ ← next?
    let _ ← expect .lBrack
    let key ← type
    let _ ← expect .rBrack
    return .map key (← type)
  | some .kwChan =>
    let _ ← next?
    if ← eat .arrow then return .chan .send (← type) else return .chan .both (← type)
  | some .arrow =>
    let _ ← next?
    let _ ← expect .kwChan
    return .chan .recv (← type)
  | some .kwInterface =>
    let _ ← next?
    return .interface (← braced (element type))
  | some .kwStruct =>
    let _ ← next?
    return .struct (← braced (field type))
  | _ => failHere (.expected .type)

/-- A type with at most `depth` levels of nesting. -/
def typeWithin : (depth : Nat) → Parser TypeExpr
  | 0 => failHere (.expected .type)
  | depth + 1 => typeStep (typeWithin depth)

/-- A type; the tokens that are left bound how deep it is nested. -/
def type : Parser TypeExpr := do
  typeWithin ((← get).rest.length + 1)

end Parser

/-- What a reading gives on the tokens of a text. -/
def Parser.run {α : Type} (p : Parser α) (text : List Char) : Except SyntaxError α :=
  match (do let tokens ← tokenize text; p ⟨tokens, 0⟩ : Except Fault (α × Cursor)) with
  | .ok (a, _) => .ok a
  | .error fault => .error (fault.locate text)

/-- Reads a text that holds a type and nothing else. -/
def TypeExpr.parse (text : String) : Except SyntaxError TypeExpr :=
  Parser.run (do
    let t ← Parser.type
    let _ ← Parser.eat .semi
    if !(← Parser.atEnd) then Parser.failHere .afterType
    return t) text.toList

end Stubwright
