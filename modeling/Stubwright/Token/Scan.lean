import Stubwright.SyntaxError
import Stubwright.Text.Letter
import Stubwright.Text.Digit
import Stubwright.Text.Bytes

/-!
# Scanning lexemes

A lexeme is a maximal piece of a text: blanks, a line break, a comment, a byte order mark or a
token.  `scan` reads the lexeme at the start of a non-empty text by the longest-match rule and
answers with its class and the number of characters it takes after the first one.  Counting from
the second character keeps every lexeme non-empty, so cutting a text into lexemes always ends.
-/

namespace Stubwright.Lexeme

inductive Class where
  /-- Spaces, tabs and form feeds. -/
  | blank
  /-- A line feed, a carriage return, or both in the order carriage return, line feed. -/
  | newline
  | lineComment
  /-- A comment between its two marks. -/
  | blockComment
  | byteOrderMark
  | token (kind : TokenKind)
deriving DecidableEq, Repr

/-- The blanks between tokens. -/
def isSpace (c : Char) : Bool :=
  c = ' ' || c = '\t' || c = '\x0c'

def isBreak (c : Char) : Bool :=
  c = '\n' || c = '\r'

def startsIdent (c : Char) : Bool :=
  c = '_' || Text.isLetter c

def continuesIdent (c : Char) : Bool :=
  c = '_' || Text.isLetter c || Text.isDecimalDigit c

/-- The number of characters up to and including the end mark of a block comment. -/
def blockCommentEnd? : List Char → Option Nat
  | '*' :: '/' :: _ => some 2
  | _ :: cs => (blockCommentEnd? cs).map (· + 1)
  | [] => none

/-- The number of characters up to and including the closing quote of a literal.  A backslash takes
the next character with it, whatever it is but a line feed; a line break ends the search. -/
def quotedEnd? (quote : Char) : List Char → Option Nat
  | [] => none
  | '\\' :: c :: cs => if c = '\n' then none else (quotedEnd? quote cs).map (· + 2)
  | c :: cs =>
    if c = quote then some 1
    else if c = '\\' || isBreak c then none
    else (quotedEnd? quote cs).map (· + 1)

/-- The number of characters up to and including the closing quote of a raw string. -/
def rawEnd? : List Char → Option Nat
  | [] => none
  | c :: cs => if c = '\x60' then some 1 else (rawEnd? cs).map (· + 1)

/-- The number of characters that continue a number after the character `prev`: letters, digits and
underscores, a point that is not followed by another, and a sign after the letter of an exponent.
In a hexadecimal number only `p` is such a letter. -/
def numberTail (hex : Bool) (prev : Char) : List Char → Nat
  | [] => 0
  | c :: cs =>
    let sign := (c = '+' || c = '-') &&
      (prev = 'p' || prev = 'P' || (!hex && (prev = 'e' || prev = 'E')))
    let point := c = '.' && cs.head? != some '.'
    if c.isAlphanum || c = '_' || point || sign then numberTail hex c cs + 1 else 0

/-- Whether a number starts with the mark of hexadecimal notation. -/
def isHex : List Char → Bool
  | '0' :: 'x' :: _ => true
  | '0' :: 'X' :: _ => true
  | _ => false

def numberKind (text : List Char) : TokenKind :=
  if text.getLast? = some 'i' then .imagLit
  else if text.contains '.' then .floatLit
  else if isHex text then
    if text.contains 'p' || text.contains 'P' then .floatLit else .intLit
  else if text.contains 'e' || text.contains 'E' then .floatLit
  else .intLit

/-- The kind of an identifier-like text: a keyword, or else an identifier. -/
def wordKind (text : List Char) : TokenKind :=
  (TokenKind.keywords.lookup (String.ofList text)).getD .ident

/-- The longest operator at the start of a text. -/
def operator? (cs : List Char) : Option (TokenKind × Nat) :=
  (TokenKind.operators.find? fun entry => entry.1.toList.isPrefixOf cs).map fun entry =>
    (entry.2, entry.1.length)

/-- A number whose first characters are `head`: its kind, and how many characters it takes
from `cs`, which follows `head`. -/
def number (head cs : List Char) : TokenKind × Nat :=
  let n := numberTail (isHex (head ++ cs.take 1)) (head.getLast?.getD '0') cs
  (numberKind (head ++ cs.take n), n)

/-- The lexeme at the start of the text `c :: cs`: its class, and how many characters it takes
after `c`. -/
def scan (c : Char) (cs : List Char) : Except SyntaxError.Cause (Class × Nat) :=
  if isSpace c then .ok (.blank, (cs.takeWhile isSpace).length)
  else if c = '\x0d' && cs.head? = some '\n' then .ok (.newline, 1)
  else if isBreak c then .ok (.newline, 0)
  else if c = '\ufeff' then .ok (.byteOrderMark, 0)
  else if c = '/' && cs.head? = some '/' then
    .ok (.lineComment, (cs.takeWhile fun d => !isBreak d).length)
  else if c = '/' && cs.head? = some '*' then
    match blockCommentEnd? (cs.drop 1) with
    | some n => .ok (.blockComment, n + 1)
    | none => .error .unterminatedComment
  else if startsIdent c then
    let tail := cs.takeWhile continuesIdent
    .ok (.token (wordKind (c :: tail)), tail.length)
  else if c.isDigit then
    let (kind, n) := number [c] cs
    .ok (.token kind, n)
  else if c = '.' && cs.head?.any Char.isDigit then
    let (kind, n) := number (c :: cs.take 1) (cs.drop 1)
    .ok (.token kind, n + 1)
  else if c = '\x27' then
    match quotedEnd? c cs with
    | some n => if n = 1 then .error .invalidToken else .ok (.token .charLit, n)
    | none => .error .invalidToken
  else if c = '\x22' then
    match quotedEnd? c cs with
    | some n => .ok (.token .stringLit, n)
    | none => .error .invalidToken
  else if c = '\x60' then
    match rawEnd? cs with
    | some n => .ok (.token .rawStringLit, n)
    | none => .error .invalidToken
  else match operator? (c :: cs) with
    | some (kind, n) => .ok (.token kind, n - 1)
    | none => .error .invalidToken

end Stubwright.Lexeme
