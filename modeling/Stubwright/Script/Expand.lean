import Stubwright.Script.Pattern
import Stubwright.Script.Shell

/-!
# Expanding words

A word becomes fields in steps: parameters, commands and arithmetic are replaced by their values,
what came from bare ones is split at separators, patterns are replaced by the names of the files
they match, and quotes are gone.

Between the steps a word is a list of glyphs, which remember where their characters came from.  The
output of commands is left to `output`, which runs them.
-/

namespace Stubwright.Script

/-- A part of a word whose parameters have been replaced. -/
inductive Glyph where
  /-- A bare character of the word itself, which may belong to a pattern. -/
  | bare (c : Char)
  | fixed (c : Char)
  /-- A character of a value, which may belong to a pattern or separate fields. -/
  | loose (c : Char)
  /-- What makes a field even if nothing is in it. -/
  | mark
  /-- What makes no field if nothing else is in it. -/
  | void
  /-- The boundary of a field. -/
  | cut
deriving DecidableEq

/-- The character of a glyph, and whether it may belong to a pattern. -/
def Glyph.char? : Glyph → Option (Char × Bool)
  | .bare c => some (c, true)
  | .loose c => some (c, true)
  | .fixed c => some (c, false)
  | .cut => some (' ', false)
  | _ => none

def glyphText (gs : List Glyph) : String :=
  String.ofList (gs.filterMap fun g => g.char?.map (·.1))

def valueGlyphs (quoted : Bool) (value : String) : List Glyph :=
  value.toList.map fun c => if quoted then .fixed c else .loose c

/-- A computation with a shell, which an error ends. -/
abbrev Expanding := StateM Shell

/-- Ends the run with an error. -/
def broken {α : Type} (result : α) : Expanding α := do
  modify Shell.fail
  return result

/-- The glyphs of all parameters of a script.  In quotes each is a field of its own, except that
they are one field for `*`. -/
def allParams (s : Shell) (name : String) (quoted : Bool) : List Glyph :=
  if quoted && name = "*" then
    let sep := match s.separators with
      | c :: _ => String.ofList [c]
      | [] => ""
    valueGlyphs true (String.intercalate sep s.params)
  else if quoted && s.params.isEmpty then [.void]
  else
    let each := s.params.map fun p =>
      (if quoted then [.mark] else []) ++ valueGlyphs quoted p
    List.intercalate [.cut] each

def setValue? (s : Shell) (name : String) (ifEmpty : Bool) : Option String :=
  let value := if name = "@" || name = "*" then
      if s.params.isEmpty then none else some (String.intercalate " " s.params)
    else s.param? name
  if ifEmpty then value.filter (· != "") else value

def paramGlyphs (name : String) (quoted : Bool) : Expanding (List Glyph) := do
  let s ← get
  if name = "@" || name = "*" then return allParams s name quoted
  match s.param? name with
  | some value => return valueGlyphs quoted value
  | none => if s.options.strict then broken [] else return []

/-- The number that a variable holds. -/
def numberOf (s : Shell) (name : String) : Option Int :=
  match s.var? name with
  | none => if s.options.strict then none else some 0
  | some value =>
    if value = "" then some 0
    else
      let (n, ok) := readInteger value.toList
      if ok then some (wrap n) else none

def arithValue (text : String) : Expanding String := do
  let s ← get
  match evalArith? (numberOf s) text.toList with
  | none => broken ""
  | some (n, settings) =>
    set (settings.reverse.foldl (fun s (name, value) => s.setVar name (toString value)) s)
    return toString n

section
variable {β : Type} (output : β → Expanding String)

mutual

/-- The glyphs of a piece.  Bare characters are loose in the word of a bare parameter. -/
def expandPiece (inner : Bool) : Piece β → Expanding (List Glyph)
  | .char c => return [if inner then .loose c else .bare c]
  | .quoted c => return [.fixed c]
  | .quotes => return [.mark]
  | .param name use quoted => expandUse name quoted use
  | .command body quoted => return valueGlyphs quoted (← output body)
  | .arith expr quoted => do
    let text ← expandPieces false expr
    return valueGlyphs quoted (← arithValue (glyphText text))

def expandPieces (inner : Bool) : List (Piece β) → Expanding (List Glyph)
  | [] => return []
  | p :: ps => do
    let first ← expandPiece inner p
    return first ++ (← expandPieces inner ps)

def expandUse (name : String) (quoted : Bool) : Use β → Expanding (List Glyph)
  | .plain => paramGlyphs name quoted
  | .length => do
    let s ← get
    if s.dialect == .extended && (name = "@" || name = "*") then
      return valueGlyphs quoted (toString s.params.length)
    let text := glyphText (← paramGlyphs name true)
    return valueGlyphs quoted (toString text.length)
  | .default ifEmpty word => do
    match setValue? (← get) name ifEmpty with
    | some _ => paramGlyphs name quoted
    | none => expandPieces true word
  | .assign ifEmpty word => do
    match setValue? (← get) name ifEmpty with
    | some _ => paramGlyphs name quoted
    | none =>
      let value := glyphText (← expandPieces true word)
      if isName name.toList then
        modify fun s => s.setVar name value
        return valueGlyphs quoted value
      else broken []
  | .require ifEmpty => do
    match setValue? (← get) name ifEmpty with
    | some _ => paramGlyphs name quoted
    | none => broken []
  | .alternative ifEmpty word => do
    match setValue? (← get) name ifEmpty with
    | some _ => expandPieces true word
    | none => return []
  | .trim atStart longest word => do
    let text := glyphText (← paramGlyphs name true)
    let parts := pattern ((← expandPieces false word).filterMap Glyph.char?)
    return valueGlyphs quoted (String.ofList (trim atStart longest parts text.toList))
  | .bad => broken []

end

/-- Cuts a word at its bare colons. -/
def colonParts {β : Type} : List (Piece β) → List (List (Piece β))
  | [] => [[]]
  | p :: ps =>
    if p.bare? = some ':' then [] :: colonParts ps
    else match colonParts ps with
      | [] => [[p]]
      | part :: parts => (p :: part) :: parts

/-- The glyphs of a word; a tilde at its start stands for the home directory. -/
def expandWord (w : List (Piece β)) : Expanding (List Glyph) := do
  let tilde := w.head?.bind Piece.bare? = some '~' &&
    match w.tail with
    | [] => true
    | p :: _ => p.bare? = some '/'
  match tilde, (← get).var? "HOME" with
  | true, some home => return valueGlyphs true home ++ (← expandPieces output false w.tail)
  | _, _ => expandPieces output false w

def expandText (w : List (Piece β)) : Expanding String :=
  return glyphText (← expandWord output w)

/-- The text of a word that is assigned, where a tilde may also stand behind a colon. -/
def expandValue (w : List (Piece β)) : Expanding String := do
  let parts ← (colonParts w).mapM (expandText output)
  return String.intercalate ":" parts

def expandPattern (w : List (Piece β)) : Expanding (List PatternPart) :=
  return pattern ((← expandWord output w).filterMap Glyph.char?)

end

/-! ## Fields -/

/-- A field that is being put together, last character first. -/
structure Field where
  /-- Its characters, and whether each may belong to a pattern. -/
  chars : List (Char × Bool)
  /-- Whether it is no field if nothing is in it. -/
  void : Bool

/-- Fields in the making. -/
structure Splitting where
  /-- The finished fields, last first. -/
  done : List (List (Char × Bool))
  current : Option Field
  /-- Whether the last field was ended by a blank alone. -/
  afterBlank : Bool

namespace Splitting

def close (s : Splitting) : Splitting :=
  match s.current with
  | none => s
  | some f =>
    if f.chars.isEmpty && f.void then { s with current := none }
    else { s with done := f.chars.reverse :: s.done, current := none }

def add (s : Splitting) (c : Char × Bool) : Splitting :=
  let f := s.current.getD ⟨[], false⟩
  { s with current := some { f with chars := c :: f.chars }, afterBlank := false }

def step (separators : List Char) (s : Splitting) : Glyph → Splitting
  | .bare c => s.add (c, true)
  | .fixed c => s.add (c, false)
  | .mark => { s with current := some (s.current.getD ⟨[], false⟩), afterBlank := false }
  | .void => { s with current := some { s.current.getD ⟨[], true⟩ with void := true } }
  | .cut => s.close
  | .loose c =>
    if !separators.contains c then s.add (c, true)
    else if c = ' ' || c = '\t' || c = '\n' then
      if s.current.isSome then { s.close with afterBlank := true } else s
    else if s.current.isSome then { s.close with afterBlank := false }
    else if s.afterBlank then { s with afterBlank := false }
    else { s with done := [] :: s.done }

end Splitting

def splitFields (separators : List Char) (gs : List Glyph) : List (List (Char × Bool)) :=
  (gs.foldl (Splitting.step separators) ⟨[], none, false⟩).close.done.reverse

/-- Cuts a field at its slashes. -/
def pathParts : List (Char × Bool) → List (List (Char × Bool))
  | [] => [[]]
  | c :: cs =>
    if c.1 = '/' then [] :: pathParts cs
    else match pathParts cs with
      | [] => [[c]]
      | part :: parts => (c :: part) :: parts

/-- The paths that parts of a pattern lead to from a path. -/
def pathMatches (s : Shell) (base : String) : List (List (Char × Bool)) → List String
  | [] => if (s.find? base).isSome then [base] else []
  | part :: parts =>
    let behind (name : String) : String :=
      if parts.isEmpty then base ++ name else base ++ name ++ "/"
    if isPattern part then
      let ps := pattern part
      let hidden := part.head?.any (·.1 = '.')
      let dots := if hidden then [".", ".."] else []
      let names := (dots ++ s.names (if base = "" then "." else base)).filter fun name =>
        (hidden || name.toList.head? != some '.') && matchesPattern ps name.toList
      names.flatMap fun name => pathMatches s (behind name) parts
    else pathMatches s (behind (String.ofList (part.map (·.1)))) parts

def fileNames (s : Shell) (field : List (Char × Bool)) : List String :=
  let text := String.ofList (field.map (·.1))
  if s.options.noPatterns || !isPattern field then [text]
  else match pathMatches s "" (pathParts field) with
    | [] => [text]
    | names => names

def expandFields {β : Type} (output : β → Expanding String) (w : List (Piece β)) :
    Expanding (List String) := do
  let gs ← expandWord output w
  let s ← get
  return (splitFields s.separators gs).flatMap (fileNames s)

def expandAll {β : Type} (output : β → Expanding String) :
    List (List (Piece β)) → Expanding (List String)
  | [] => return []
  | w :: ws => do
    let first ← expandFields output w
    return first ++ (← expandAll output ws)

end Stubwright.Script
