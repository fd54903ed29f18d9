import Stubwright.Script.Syntax

/-!
# Reading shell scripts

A script is read line by line, and a line is carried out before the next one is read.  What cannot
be read therefore matters only once the run gets there, and `readLines` gives all lines that can be
read and says whether something else follows.

The readers of words and commands need each other, for a word may hold commands.  Readers of words
therefore take a reader of commands, and readers of commands take one for the commands nested in
them; `block` ties the two, with a bound on how deep commands are nested.
-/

namespace Stubwright.Script

/-- A document that was announced and whose text starts on the next line. -/
structure Announced where
  /-- The line that ends the document. -/
  ending : List Char
  /-- Whether the text is taken as it stands. -/
  literal : Bool
  /-- Whether tabs at the start of lines are left out. -/
  dropTabs : Bool
deriving Repr

/-- What is left to read, the announced documents and those that were read, last first. -/
structure Source where
  /-- The text that is left. -/
  rest : List Char
  announced : List Announced
  /-- The documents that were read, last first. -/
  documents : List Word
  nextDocument : Nat

/-- A reader; it fails where the script is malformed. -/
abbrev Reader := StateT Source Option

namespace Reader

/-! ## Characters -/

/-- The text without joined line ends at its start. -/
def dropJoins : List Char → List Char
  | '\\' :: '\n' :: cs => dropJoins cs
  | cs => cs

def setRest (rest : List Char) : Reader Unit :=
  modify fun s => { s with rest := rest }

/-- What is left to read, behind joined line ends. -/
def ahead : Reader (List Char) := do
  let s ← get
  let rest := dropJoins s.rest
  setRest rest
  return rest

def peek : Reader (Option Char) :=
  return (← ahead).head?

def skip (n : Nat) : Reader Unit :=
  modify fun s => { s with rest := s.rest.drop n }

/-- Takes characters as long as they are of a kind. -/
def takeWhile (p : Char → Bool) : Reader (List Char) := do
  let rest ← ahead
  setRest (rest.dropWhile p)
  return rest.takeWhile p

/-- Passes over a text if it comes next. -/
def accept (text : String) : Reader Bool := do
  let rest ← ahead
  if text.toList.isPrefixOf rest then
    setRest (rest.drop text.length)
    return true
  else return false

/-- Passes over a text that has to come next. -/
def expect (text : String) : Reader Unit := do
  if ← accept text then return () else failure

/-- The characters that end a bare word. -/
def isDelimiter (c : Char) : Bool :=
  " \t\n;&|<>()".toList.contains c

/-- Passes over blanks and a comment. -/
def skipBlanks : Reader Unit := do
  let s ← get
  let rec go : Nat → List Char → List Char
    | 0, cs => cs
    | n + 1, cs =>
      match dropJoins cs with
      | c :: rest => if c = ' ' || c = '\t' then go n rest else c :: rest
      | [] => []
  let rest := go s.rest.length s.rest
  setRest (if rest.head? = some '#' then rest.dropWhile (· != '\n') else rest)

/-! ## Words -/

/-- What the pieces of a word stand in. -/
inductive Within where
  /-- Nothing. -/
  | bare
  | double
  | braces
  | quotedBraces
  | document
  /-- An arithmetic expression, with a number of open parentheses. -/
  | arith (depth : Nat)
deriving DecidableEq

/-- Whether text is quoted where it stands. -/
def Within.isQuoted : Within → Bool
  | .bare => false
  | .braces => false
  | _ => true

def Within.endsAt (w : Within) (c : Char) : Bool :=
  match w with
  | .bare => isDelimiter c
  | .double => c = '\x22'
  | .braces => c = '\x7d'
  | .quotedBraces => c = '\x7d'
  | .document => false
  | .arith depth => c = ')' && depth == 0

def Within.mayEnd : Within → Bool
  | .bare => true
  | .document => true
  | _ => false

def Within.after (w : Within) (c : Char) : Within :=
  match w with
  | .arith depth =>
    if c = '(' then .arith (depth + 1) else if c = ')' then .arith (depth - 1) else w
  | _ => w

/-- Whether a backslash takes away the meaning of a character. -/
def Within.escapes (w : Within) (c : Char) : Bool :=
  match w with
  | .bare => true
  | .braces => true
  | .document => "$\x60\\".toList.contains c
  | .quotedBraces => "$\x60\x22\\\x7d".toList.contains c
  | _ => "$\x60\x22\\".toList.contains c

/-- The text of commands in back quotes, and what follows them. -/
def backQuoted (inDouble : Bool) : List Char → Option (List Char × List Char)
  | [] => none
  | '\x60' :: cs => some ([], cs)
  | '\\' :: c :: cs =>
    (backQuoted inDouble cs).map fun (text, rest) =>
      if c = '$' || c = '\x60' || c = '\\' || (inDouble && c = '\x22') then (c :: text, rest)
      else ('\\' :: c :: text, rest)
  | c :: cs => (backQuoted inDouble cs).map fun (text, rest) => (c :: text, rest)

def specialParams : List Char := ['@', '*', '#', '?', '-', '$', '!']

def braceName : Reader (List Char) := do
  match ← peek with
  | none => failure
  | some c =>
    if isNameStart c then takeWhile isNameChar
    else if c.isDigit then takeWhile Char.isDigit
    else if specialParams.contains c then
      skip 1
      return [c]
    else return []

section
variable (commands : Reader (List Command))

mutual

def pieces : (fuel : Nat) → Within → Reader Word
  | 0, _ => failure
  | fuel + 1, within => do
    match ← peek with
    | none => if within.mayEnd then return [] else failure
    | some c =>
      if within.endsAt c then return []
      else
        let first ← piece fuel within c
        return first ++ (← pieces fuel (within.after c))

def piece : (fuel : Nat) → Within → Char → Reader Word
  | 0, _, _ => failure
  | fuel + 1, within, c => do
    skip 1
    let plain (c : Char) : Word := [if within.isQuoted then .quoted c else .char c]
    if c = '\x27' && !within.isQuoted then
      let s ← get
      let inner := s.rest.takeWhile (· != '\x27')
      if inner.length = s.rest.length then failure
      setRest (s.rest.drop (inner.length + 1))
      return .quotes :: inner.map .quoted
    else if c = '\x22' then
      match within with
      | .document => return [.quoted c]
      | .arith _ => return []
      | _ =>
        let inner ← pieces fuel .double
        expect "\x22"
        return .quotes :: inner
    else if c = '\\' then
      match (← get).rest with
      | [] => return plain c
      | d :: rest =>
        if within.escapes d then
          setRest rest
          return [.quoted d]
        else return plain c
    else if c = '\x60' then
      let s ← get
      match backQuoted (within == .double) s.rest with
      | none => failure
      | some (text, rest) =>
        setRest text
        let body ← commands
        if !(← get).rest.isEmpty then failure
        setRest rest
        return [.command body within.isQuoted]
    else if c = '$' then parameter fuel within
    else return plain c

/-- What a dollar sign stands for. -/
def parameter : (fuel : Nat) → Within → Reader Word
  | 0, _ => failure
  | fuel + 1, within => do
    let quoted := within.isQuoted
    match ← peek with
    | none => return [if quoted then .quoted '$' else .char '$']
    | some c =>
      if c = '(' then
        if ← accept "((" then
          let expr ← pieces fuel (.arith 0)
          expect "))"
          return [.arith expr quoted]
        else
          skip 1
          let body ← commands
          expect ")"
          return [.command body quoted]
      else if c = '\x7b' then
        skip 1
        if ← accept "#\x7d" then return [.param "#" .plain quoted]
        if ← accept "#" then
          let name ← braceName
          let use : Use (List Command) ← if ← accept "\x7d" then pure .length else badUse fuel
          return [.param (String.ofList name) (if name.isEmpty then .bad else use) quoted]
        let name ← braceName
        if name.isEmpty then
          return [.param "" (← badUse fuel) quoted]
        return [.param (String.ofList name) (← use fuel within) quoted]
      else if isNameStart c then
        return [.param (String.ofList (← takeWhile isNameChar)) .plain quoted]
      else if c.isDigit || specialParams.contains c then
        skip 1
        return [.param (String.ofList [c]) .plain quoted]
      else return [if quoted then .quoted '$' else .char '$']

/-- Passes over the rest of a form that does not exist. -/
def badUse : (fuel : Nat) → Reader (Use (List Command))
  | 0 => failure
  | fuel + 1 => do
    let _ ← pieces fuel .braces
    expect "\x7d"
    return .bad

/-- What is made of the value of a parameter in braces. -/
def use : (fuel : Nat) → Within → Reader (Use (List Command))
  | 0, _ => failure
  | fuel + 1, within => do
    let inner : Within := if within.isQuoted then .quotedBraces else .braces
    let word (inner : Within) : Reader Word := do
      let w ← pieces fuel inner
      expect "\x7d"
      return w
    if ← accept "\x7d" then return .plain
    if ← accept "%%" then return .trim false true (← word .braces)
    if ← accept "%" then return .trim false false (← word .braces)
    if ← accept "##" then return .trim true true (← word .braces)
    if ← accept "#" then return .trim true false (← word .braces)
    let ifEmpty ← accept ":"
    if ← accept "-" then return .default ifEmpty (← word inner)
    if ← accept "=" then return .assign ifEmpty (← word inner)
    if ← accept "+" then return .alternative ifEmpty (← word inner)
    if ← accept "?" then
      let _ ← word inner
      return .require ifEmpty
    badUse fuel

end

def word? : Reader (Option Word) := do
  skipBlanks
  match ← peek with
  | none => return none
  | some c =>
    if isDelimiter c then return none
    else return some (← pieces commands (3 * (← get).rest.length + 3) .bare)

def word : Reader Word := do
  match ← word? commands with
  | some w => return w
  | none => failure

/-! ## Lines -/

/-- The lines of a document up to its end, and what follows it. -/
def documentLines (d : Announced) : Nat → List Char → List Char × List Char
  | 0, cs => ([], cs)
  | fuel + 1, cs =>
    if cs.isEmpty then ([], [])
    else
      let cs := if d.dropTabs then cs.dropWhile (· = '\t') else cs
      let line := cs.takeWhile (· != '\n')
      let rest := cs.drop (line.length + 1)
      if line = d.ending then ([], rest)
      else
        let (text, rest) := documentLines d fuel rest
        (line ++ '\n' :: text, rest)

/-- Reads the announced documents, whose text comes next. -/
def readDocuments : List Announced → Reader Unit
  | [] => return ()
  | d :: ds => do
    let s ← get
    let (text, rest) := documentLines d (s.rest.length + 1) s.rest
    let body : Word ←
      if d.literal then pure (text.map .quoted)
      else
        setRest text
        pieces commands (3 * text.length + 3) .document
    modify fun s => { s with rest := rest, documents := body :: s.documents }
    readDocuments ds

/-- Passes over the end of a line and reads the documents behind it. -/
def endLine : Reader Unit := do
  skip 1
  let announced := (← get).announced
  modify fun s => { s with announced := [] }
  readDocuments commands announced

/-- Passes over blanks and ends of lines. -/
def skipLines : Nat → Reader Unit
  | 0 => return ()
  | fuel + 1 => do
    skipBlanks
    if (← peek) = some '\n' then
      endLine commands
      skipLines fuel

/-- Passes over all blanks and ends of lines that come next. -/
def skipEmpty : Reader Unit := do
  skipLines commands ((← get).rest.length + 1)

end

/-! ## Commands -/

def comes (keyword : String) : Reader Bool := do
  skipBlanks
  let rest ← ahead
  return keyword.toList.isPrefixOf rest && ((rest.drop keyword.length).head?.all isDelimiter)

/-- Passes over a reserved word if it comes next. -/
def acceptWord (keyword : String) : Reader Bool := do
  if ← comes keyword then
    skip keyword.length
    return true
  else return false

/-- Passes over a reserved word that has to come next. -/
def expectWord (keyword : String) : Reader Unit := do
  if ← acceptWord keyword then return () else failure

/-- The reserved words that end a list of commands. -/
def closers : List String := ["then", "fi", "do", "done", "elif", "else", "esac", "\x7d"]

/-- Whether one of several reserved words comes next. -/
def comesAny : List String → Reader Bool
  | [] => return false
  | keyword :: rest => do if ← comes keyword then return true else comesAny rest

def atEnd : Reader Bool := do
  skipBlanks
  match ← ahead with
  | [] => return true
  | ')' :: _ => return true
  | ';' :: ';' :: _ => return true
  | _ => comesAny closers

/-- The stream whose number stands before a redirection, and the text from the operator on. -/
def redirection? : List Char → Option (Option Nat × List Char)
  | c :: d :: cs =>
    if c = '<' || c = '>' then some (none, c :: d :: cs)
    else if c.isDigit && (d = '<' || d = '>') then some (some (c.toNat - '0'.toNat), d :: cs)
    else none
  | [c] => if c = '<' || c = '>' then some (none, [c]) else none
  | [] => none

section
variable (commands : Reader (List Command))

def redirect? : Reader (Option (Redirect (List Command))) := do
  skipBlanks
  match redirection? (← ahead) with
  | none => return none
  | some (stream, rest) =>
    setRest rest
    let plain (standard : Nat) (direction : Direction) :
        Reader (Option (Redirect (List Command))) := do
      return some (.word (stream.getD standard) direction (← word commands))
    if ← accept "<<" then
      let dropTabs ← accept "-"
      let ending ← word commands
      let s ← get
      let announced : Announced :=
        ⟨ending.filterMap Piece.char?, ending.any Piece.isQuoted, dropTabs⟩
      set { s with announced := s.announced ++ [announced], nextDocument := s.nextDocument + 1 }
      return some (.document (stream.getD 0) s.nextDocument)
    else if ← accept "<&" then plain 0 .copy
    else if ← accept "<>" then plain 0 .input
    else if ← accept "<" then plain 0 .input
    else if ← accept ">>" then plain 1 .append
    else if ← accept ">&" then plain 1 .copy
    else if ← accept ">|" then plain 1 .output
    else
      expect ">"
      plain 1 .output

def redirects : Nat → Reader (List (Redirect (List Command)))
  | 0 => return []
  | fuel + 1 => do
    match ← redirect? commands with
    | none => return []
    | some r => return r :: (← redirects fuel)

def assignment? (w : Word) : Option (String × Word) :=
  let name := (w.map Piece.bare?).takeWhile fun c => c.any isNameChar
  let chars := name.filterMap id
  match (w.drop name.length).head?.bind Piece.bare? with
  | some '=' => if isName chars then some (String.ofList chars, w.drop (name.length + 1)) else none
  | _ => none

/-- The words and redirections of a simple command; `fresh` says that assignments may come. -/
def simpleParts : (fuel : Nat) → (fresh : Bool) →
    Reader (List (String × Word) × List Word × List (Redirect (List Command)))
  | 0, _ => failure
  | fuel + 1, fresh => do
    match ← redirect? commands with
    | some r =>
      let (assigned, words, redirects) ← simpleParts fuel fresh
      return (assigned, words, r :: redirects)
    | none =>
      match ← word? commands with
      | none => return ([], [], [])
      | some w =>
        match if fresh then assignment? w else none with
        | some a =>
          let (assigned, words, redirects) ← simpleParts fuel true
          return (a :: assigned, words, redirects)
        | none =>
          let (assigned, words, redirects) ← simpleParts fuel false
          return (assigned, w :: words, redirects)

def body : Reader (List Command) := do
  match ← commands with
  | [] => failure
  | cs => return cs

/-- What follows the condition and the body of a conditional. -/
def otherwise : Nat → Reader (List Command)
  | 0 => failure
  | fuel + 1 => do
    if ← acceptWord "elif" then
      let condition ← body commands
      expectWord "then"
      let inner ← body commands
      return [.branch condition inner (← otherwise fuel)]
    if ← acceptWord "else" then
      let inner ← body commands
      expectWord "fi"
      return inner
    expectWord "fi"
    return []

def loopWords : Nat → Reader (List Word)
  | 0 => failure
  | fuel + 1 => do
    match ← word? commands with
    | none => return []
    | some w => return w :: (← loopWords fuel)

def loopBody : Reader (List Command) := do
  skipEmpty commands
  expectWord "do"
  let inner ← body commands
  expectWord "done"
  return inner

def patterns : Nat → Reader (List Word)
  | 0 => failure
  | fuel + 1 => do
    let w ← word commands
    skipBlanks
    if ← accept "|" then return w :: (← patterns fuel)
    expect ")"
    return [w]

def arms : Nat → Reader (List (List Word × List Command))
  | 0 => failure
  | fuel + 1 => do
    skipEmpty commands
    if ← acceptWord "esac" then return []
    let _ ← accept "("
    let pats ← patterns commands ((← get).rest.length + 1)
    let inner ← commands
    skipBlanks
    if ← accept ";;" then return (pats, inner) :: (← arms fuel)
    expectWord "esac"
    return [(pats, inner)]

def eachLoop : Reader Command := do
  skipBlanks
  let name ← takeWhile isNameChar
  if !isName name then failure
  skipEmpty commands
  if ← acceptWord "in" then
    let words ← loopWords commands ((← get).rest.length + 1)
    skipBlanks
    if !(← accept ";") && (← peek) != some '\n' then failure
    return .each (String.ofList name) (some words) (← loopBody commands)
  let _ ← accept ";"
  return .each (String.ofList name) none (← loopBody commands)

/-- A command that begins with a reserved word or a parenthesis, if one comes next. -/
def compound? : Reader (Option Command) := do
  skipBlanks
  let size := (← get).rest.length + 1
  if ← acceptWord "if" then
    let condition ← body commands
    expectWord "then"
    let inner ← body commands
    return some (.branch condition inner (← otherwise commands size))
  if ← acceptWord "while" then
    let condition ← body commands
    return some (.loop false condition (← loopBody commands))
  if ← acceptWord "until" then
    let condition ← body commands
    return some (.loop true condition (← loopBody commands))
  if ← acceptWord "for" then return some (← eachLoop commands)
  if ← acceptWord "case" then
    let subject ← word commands
    skipEmpty commands
    expectWord "in"
    return some (.choose subject (← arms commands size))
  if ← acceptWord "\x7b" then
    let inner ← body commands
    expectWord "\x7d"
    return some (.group inner)
  if ← accept "(" then
    let inner ← body commands
    expect ")"
    return some (.subshell inner)
  return none

def simple : Reader Command := do
  if ← comesAny closers then failure
  let (assigned, words, redirects) ← simpleParts commands ((← get).rest.length + 2) true
  if assigned.isEmpty && words.isEmpty && redirects.isEmpty then failure
  return .simple assigned words redirects

/-- A command with its redirections; a function is defined by a name and parentheses before one. -/
def command : (fuel : Nat) → Reader Command
  | 0 => failure
  | fuel + 1 => do
    match ← compound? commands with
    | some c =>
      match ← redirects commands ((← get).rest.length + 1) with
      | [] => return c
      | rs => return .redirected c rs
    | none =>
      let rest ← ahead
      let name := rest.takeWhile isNameChar
      let behind := (rest.drop name.length).dropWhile fun c => c = ' ' || c = '\t'
      if isName name && behind.head? = some '(' then
        setRest (behind.drop 1)
        skipBlanks
        expect ")"
        skipEmpty commands
        return .define (String.ofList name) (← command fuel)
      else simple commands

def stages : Nat → Reader (List Command)
  | 0 => failure
  | fuel + 1 => do
    let first ← command commands ((← get).rest.length + 1)
    skipBlanks
    let rest ← ahead
    if rest.head? = some '|' && (rest.drop 1).head? != some '|' then
      skip 1
      skipEmpty commands
      return first :: (← stages fuel)
    return [first]

def pipeline : Reader Command := do
  let negated ← acceptWord "!"
  if negated && (← comes "!") then failure
  let inner : Command ← match ← stages commands ((← get).rest.length + 1) with
    | [one] => pure one
    | all => pure (.pipeline all)
  return if negated then .negated inner else inner

/-- What follows a pipeline that others hang on. -/
def linked : Nat → Command → Reader Command
  | 0, first => return first
  | fuel + 1, first => do
    skipBlanks
    if ← accept "&&" then
      skipEmpty commands
      linked fuel (.andThen first (← pipeline commands))
    else if ← accept "||" then
      skipEmpty commands
      linked fuel (.orElse first (← pipeline commands))
    else return first

/-- Pipelines that hang on each other. -/
def chain : Reader Command := do
  let first ← pipeline commands
  linked commands ((← get).rest.length + 1) first

/-- A command with what separates it from the next one, and whether one may follow on this line. -/
def separated : Reader (Command × Bool) := do
  let first ← chain commands
  skipBlanks
  let rest ← ahead
  match rest with
  | ';' :: ';' :: _ => return (first, false)
  | ';' :: _ =>
    skip 1
    return (first, true)
  | '&' :: _ =>
    skip 1
    return (.background first, true)
  | _ => return (first, false)

/-- A list of commands over any number of lines. -/
def blockItems : Nat → Reader (List Command)
  | 0 => failure
  | fuel + 1 => do
    skipEmpty commands
    if ← atEnd then return []
    let (first, more) ← separated commands
    if more || (← peek) = some '\n' then return first :: (← blockItems fuel)
    return [first]

def lineItems : Nat → Reader (List Command)
  | 0 => failure
  | fuel + 1 => do
    let (first, more) ← separated commands
    skipBlanks
    match ← peek with
    | none => return [first]
    | some '\n' =>
      endLine commands
      return [first]
    | some _ => if more then return first :: (← lineItems fuel) else failure

end

/-- A list of commands, nested at most `depth` deep. -/
def block : (depth : Nat) → Reader (List Command)
  | 0 => failure
  | depth + 1 => do blockItems (block depth) ((← get).rest.length + 2)

def line (depth : Nat) : Reader (List Command) := do
  lineItems (block depth) ((← get).rest.length + 2)

end Reader

/-- What was read of a script. -/
structure Lines where
  lines : List (Nat × List Command)
  /-- Whether something follows that cannot be read. -/
  broken : Bool
  documents : List Word

/-- Reads at most `fuel` lines of a text that has `ends` ends of lines. -/
def readFrom (depth ends : Nat) : (fuel : Nat) → Source → Lines
  | 0, s => ⟨[], false, s.documents.reverse⟩
  | fuel + 1, s =>
    match (Reader.skipEmpty (Reader.block depth)).run s with
    | none => ⟨[], true, s.documents.reverse⟩
    | some (_, s) =>
      if s.rest.isEmpty then ⟨[], false, s.documents.reverse⟩
      else match (Reader.line depth).run s with
        | none => ⟨[], true, s.documents.reverse⟩
        | some (commands, after) =>
          let more := readFrom depth ends fuel after
          { more with lines := (ends + 1 - s.rest.count '\n', commands) :: more.lines }

/-- Reads a script; the documents in it are numbered from `first` on. -/
def readLines (first : Nat) (text : List Char) : Lines :=
  readFrom (text.length + 1) (text.count '\n') (text.length + 1) ⟨text, [], [], first⟩

end Stubwright.Script
