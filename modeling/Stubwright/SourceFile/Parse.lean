import Stubwright.SourceFile
import Stubwright.TypeExpr.Parse

/-!
# Reading source files

A file is a package clause, then imports, then declarations, each ended by a semicolon that only
the end of the file replaces.  Types and signatures are read in full; function bodies and value
declarations are passed over by matching delimiters.

A bracket behind a declared name opens type parameters, `type A[T any] …`, or the length of an
array, `type A [N]T`.  The token behind the first name decides, except for a star: `[N *M]` is the
length of an array unless the list cannot be read as one, which a type literal behind the star or a
trailing comma shows.
-/

namespace Stubwright

namespace Parser

/-! ## Imports -/

/-- Exchanges every pair of a backslash and a character for that character. -/
def unescape (escaped : Char) : List Char → List Char
  | [] => []
  | [c] => [c]
  | c :: d :: cs =>
    if c = '\\' && d = escaped then d :: unescape escaped cs else c :: unescape escaped (d :: cs)

/-- A literal without its first and last character. -/
def withoutQuotes (text : List Char) : List Char :=
  (text.drop 1).dropLast

/-- The import path that a string literal writes. -/
def unquote (literal : String) : String :=
  String.ofList (unescape '\x22' (unescape '\\' (withoutQuotes literal.toList)))

/-- The name of an imported package before its path. -/
def importName : Parser (Option String) := do
  if ← isAt .ident then return some (← identifier)
  else if ← eat .dot then return some "."
  else return none

/-- An import: a name, if one is given, and a path. -/
def importSpec : Parser ImportSpec := do
  let start ← ahead
  let name ← importName
  if !isTag (← peek) then failHere (.expected .importPath)
  let path := (← next?).map (·.text)
  return { name, path := unquote (path.getD ""), span := Span.between start (← behind) }

/-- Items that stand alone or in a group in parentheses.  The result has the parentheses of a
group. -/
def grouped {α : Type} (item : Parser α) : Parser (Option (Token × Token) × List α) := do
  if !(← isAt .lParen) then return (none, [← item])
  let opening ← expect .lParen
  let items ← itemsUntil .rParen do
    let a ← item
    endOrClose .rParen
    return (a, true)
  let closing ← expect .rParen
  return (some (opening, closing), items)

/-- A declaration of imports. -/
def importDecl : Parser ImportDecl := do
  let start ← ahead
  let _ ← expect .kwImport
  let (parens, specs) ← grouped importSpec
  return {
    span := Span.between start (← behind)
    lparen := parens.map (·.1.span)
    rparen := parens.map (·.2.span)
    specs }

/-! ## Type declarations -/

/-- A list of type parameters, and whether a comma stands before its closing bracket. -/
def typeParamList : Parser (List TypeParam × Bool) := do
  let _ ← expect .lBrack
  let (groups, waiting, comma) ← loop (fun (groups, waiting, comma) => do
    if ← isAt .rBrack then return .inr (groups, waiting, comma)
    let names := waiting ++ [← identifier]
    if ← eat .comma then return .inl (groups, names, true)
    let group : TypeParam := ⟨names, ← constraint type⟩
    if ← eat .comma then return .inl (groups ++ [group], [], true)
    else return .inr (groups ++ [group], [], false)) (([], [], false) : List TypeParam × List String × Bool)
  if !waiting.isEmpty then failHere .missingConstraint
  let _ ← expect .rBrack
  return (groups, comma)

/-- Whether a bracket behind a declared name, with these two kinds of tokens behind it, opens type
parameters rather than the length of an array. -/
def opensTypeParams (first second : Option TokenKind) : Bool :=
  first == some .ident &&
    [some .ident, some .comma, some .star, some .tilde, some .lBrack, some .arrow,
      some .kwInterface, some .kwMap, some .kwChan, some .kwFunc, some .kwStruct].contains second

/-- Whether a type cannot also be read as an operand of a length. -/
def isTypeLiteral : TypeExpr → Bool
  | .paren elem => isTypeLiteral elem
  | .name _ | .qualified .. | .generic .. | .pointer _ | .ellipsis _ => false
  | _ => true

/-- Whether a list of type parameters is spelled like the length of an array: a name, a star and an
operand. -/
def readsAsLength (groups : List TypeParam) (comma : Bool) : Bool :=
  match groups with
  | [⟨[_], .pointer operand⟩] => !comma && !isTypeLiteral operand
  | _ => false

/-- The type parameters behind a declared name; none when the bracket there opens the length of an
array. -/
def typeParams : Parser (List TypeParam) := do
  if !(← isAt .lBrack) then return []
  let second ← peekAt 2
  if !opensTypeParams (← peekAt 1) second then return []
  if second == some .star then
    let groups ← attempt? typeParamList fun (groups, comma) _ => !readsAsLength groups comma
    return (groups.map (·.1)).getD []
  return (← typeParamList).1

/-- A declared type behind the keyword. -/
def typeSpec : Parser TypeSpec := do
  let start ← ahead
  let name ← identifier
  let typeParams ← typeParams
  let isAlias ← eat .assign
  let t ← type
  return { name, span := Span.between start (← behind), typeParams, isAlias, type := t }

/-- A declaration of types. -/
def typeDecl : Parser Decl := do
  let start ← ahead
  let _ ← expect .kwType
  let (_, specs) ← grouped typeSpec
  return .types (Span.between start (← behind)) specs

/-! ## Functions -/

/-- The name of a type argument of a receiver, which has to be a bare name. -/
def receiverArg? : TypeExpr → Option String
  | .name n => some n
  | _ => none

/-- The type a method belongs to, with the names of its type arguments. -/
def receiverBase? : TypeExpr → Option (String × List String)
  | .name n => some (n, [])
  | .generic (.name n) args => (args.mapM receiverArg?).map fun names => (n, names)
  | _ => none

/-- The receiver that parameters stand for, if they are the one parameter of a declared type. -/
def receiver? (params : List Param) : Option Receiver :=
  match params with
  | [⟨names, t⟩] =>
    if names.length > 1 then none
    else
      let (pointer, base) := match t.unparen with
        | .pointer elem => (true, elem.unparen)
        | other => (false, other)
      (receiverBase? base).map fun (base, typeArgs) =>
        { name := names.head?, pointer, base, typeArgs }
  | _ => none

/-- A receiver in parentheses. -/
def receiver : Parser Receiver := do
  let start ← ahead
  match receiver? (← params type) with
  | some r => return r
  | none => failAt (Span.emptyAt start) .invalidReceiver

/-- Passes over a body that starts at `start`, with `depth` braces open and a token that ended at
`behind` taken last. -/
def skipBody (start : Nat) : (depth behind : Nat) → List Token → Except Fault Cursor
  | 0, behind, ts => .ok ⟨ts, behind⟩
  | _ + 1, _, [] => .error ⟨.unclosedDelimiter, some (Span.emptyAt start)⟩
  | depth + 1, _, t :: ts =>
    if t.kind = .lBrace then skipBody start (depth + 2) t.stop ts
    else if t.kind = .rBrace then skipBody start depth t.stop ts
    else skipBody start (depth + 1) t.stop ts

/-- The place of a function's body, if there is one. -/
def body : Parser (Option Span) := do
  if !(← isAt .lBrace) then return none
  let opening ← expect .lBrace
  match skipBody opening.start 1 opening.stop (← get).rest with
  | .error fault => throw fault
  | .ok s =>
    set s
    return some (Span.between opening.start s.behind)

/-- A function or method declaration. -/
def funcDecl : Parser Decl := do
  let start ← ahead
  let _ ← expect .kwFunc
  let recv ← if ← isAt .lParen then pure (some (← receiver)) else pure none
  let name ← identifier
  let typeParams ← if ← isAt .lBrack then pure (← typeParamList).1 else pure []
  let sig ← signature type
  let body ← body
  return .func { recv, name, typeParams, sig, body, span := Span.between start (← behind) }

/-! ## Values -/

/-- Passes over a declaration of values up to the semicolon that ends it. -/
def skipValue : (depth behind : Nat) → List Token → Except Fault Cursor
  | depth, behind, [] =>
    if depth = 0 then .ok ⟨[], behind⟩ else .error ⟨.unterminatedDeclaration .eof, none⟩
  | depth, behind, t :: ts =>
    match t.kind with
    | .lParen | .lBrace | .lBrack => skipValue (depth + 1) t.stop ts
    | .rParen | .rBrace | .rBrack =>
      if depth = 0 then .error ⟨.unbalancedDelimiter t.found, some t.span⟩
      else skipValue (depth - 1) t.stop ts
    | .semi => if depth = 0 then .ok ⟨t :: ts, behind⟩ else skipValue depth t.stop ts
    | _ => skipValue depth t.stop ts

/-- A declaration of variables or constants. -/
def valueDecl : Parser Decl := do
  let start ← ahead
  let _ ← next?
  let s ← get
  match skipValue 0 s.behind s.rest with
  | .error fault => throw fault
  | .ok s =>
    set s
    return .value (Span.between start s.behind)

/-! ## Files -/

/-- The end of a declaration: a semicolon or the end of the file. -/
def topLevelEnd : Parser Unit := do
  if ← eat .semi then return
  if ← atEnd then return
  failHere (.expected .endOfTopLevel)

/-- A declaration by its first token, which is ahead; nothing for an empty one. -/
def decl (kind : TokenKind) : Parser (Option Decl) := do
  match kind with
  | .kwType => return some (← typeDecl)
  | .kwFunc => return some (← funcDecl)
  | .kwVar | .kwConst => return some (← valueDecl)
  | .kwImport => failHere .lateImport
  | .semi => return none
  | _ => failHere (.expected .declaration)

/-- The import declarations, up to the first token that starts none. -/
def importDecls : Parser (List ImportDecl) :=
  loop (fun imports => do
    if !(← isAt .kwImport) then return .inr imports
    let i ← importDecl
    topLevelEnd
    return .inl (imports ++ [i])) []

/-- The declarations behind the imports, up to the end of the file. -/
def decls : Parser (List Decl) :=
  loop (fun decls => do
    match ← peek with
    | none => return .inr decls
    | some kind =>
      let d ← decl kind
      topLevelEnd
      return .inl (decls ++ d.toList)) []

/-- A source file: the package clause, the imports, the other declarations. -/
def file : Parser SourceFile := do
  let start ← ahead
  let _ ← expect .kwPackage
  let package ← identifier
  let packageSpan := Span.between start (← behind)
  topLevelEnd
  let imports ← importDecls
  return { package, packageSpan, imports, decls := ← decls }

end Parser

/-- Reads a text as a source file. -/
def SourceFile.parse (text : String) : Except SyntaxError SourceFile :=
  Parser.file.run text.toList

end Stubwright
