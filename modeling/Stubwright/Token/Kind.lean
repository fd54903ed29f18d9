/-!
# Kinds of tokens

The tokens of a Go source text: identifiers, literals, the keywords of the language and its
operators and punctuation.  Keywords and operators have one spelling each, given by `spelling?`;
the other kinds are classes of texts.
-/

namespace Stubwright

inductive TokenKind where
  | ident
  | intLit
  | floatLit
  | imagLit
  | charLit
  | stringLit
  | rawStringLit
  | kwBreak
  | kwCase
  | kwChan
  | kwConst
  | kwContinue
  | kwDefault
  | kwDefer
  | kwElse
  | kwFallthrough
  | kwFor
  | kwFunc
  | kwGo
  | kwGoto
  | kwIf
  | kwImport
  | kwInterface
  | kwMap
  | kwPackage
  | kwRange
  | kwReturn
  | kwSelect
  | kwStruct
  | kwSwitch
  | kwType
  | kwVar
  | ellipsis
  | shlAssign
  | shrAssign
  | andNotAssign
  | addAssign
  | subAssign
  | mulAssign
  | divAssign
  | modAssign
  | andAssign
  | orAssign
  | xorAssign
  | shl
  | shr
  | andNot
  | lAnd
  | lOr
  | eqEq
  | notEq
  | le
  | ge
  | inc
  | dec
  | define
  | arrow
  | assign
  | plus
  | minus
  | star
  | slash
  | percent
  | amp
  | pipe
  | caret
  | tilde
  | bang
  | lt
  | gt
  | lParen
  | rParen
  | lBrack
  | rBrack
  | lBrace
  | rBrace
  | comma
  | semi
  | colon
  | dot
deriving DecidableEq, Repr, Inhabited

namespace TokenKind

/-- The keywords of the language with their spelling. -/
def keywords : List (String × TokenKind) :=
  [("break", kwBreak), ("case", kwCase), ("chan", kwChan), ("const", kwConst),
   ("continue", kwContinue), ("default", kwDefault), ("defer", kwDefer), ("else", kwElse),
   ("fallthrough", kwFallthrough), ("for", kwFor), ("func", kwFunc), ("go", kwGo),
   ("goto", kwGoto), ("if", kwIf), ("import", kwImport), ("interface", kwInterface),
   ("map", kwMap), ("package", kwPackage), ("range", kwRange), ("return", kwReturn),
   ("select", kwSelect), ("struct", kwStruct), ("switch", kwSwitch), ("type", kwType),
   ("var", kwVar)]

/-- The operators and punctuation marks with their spelling, longer spellings first, so that the
first one that starts a text is the longest. -/
def operators : List (String × TokenKind) :=
  [("...", ellipsis), ("<<=", shlAssign), (">>=", shrAssign), ("&^=", andNotAssign),
   ("+=", addAssign), ("-=", subAssign), ("*=", mulAssign), ("/=", divAssign), ("%=", modAssign),
   ("&=", andAssign), ("|=", orAssign), ("^=", xorAssign), ("<<", shl), (">>", shr),
   ("&^", andNot), ("&&", lAnd), ("||", lOr), ("==", eqEq), ("!=", notEq), ("<=", le), (">=", ge),
   ("++", inc), ("--", dec), (":=", define), ("<-", arrow), ("=", assign), ("+", plus),
   ("-", minus), ("*", star), ("/", slash), ("%", percent), ("&", amp), ("|", pipe), ("^", caret),
   ("~", tilde), ("!", bang), ("<", lt), (">", gt), ("(", lParen), (")", rParen), ("[", lBrack),
   ("]", rBrack), ("\x7b", lBrace), ("\x7d", rBrace), (",", comma), (";", semi), (":", colon),
   (".", dot)]

def spelling? (k : TokenKind) : Option String :=
  ((keywords ++ operators).find? fun entry => entry.2 == k).map (·.1)

def endsStatement : TokenKind → Bool
  | ident | intLit | floatLit | imagLit | charLit | stringLit | rawStringLit
  | kwBreak | kwContinue | kwFallthrough | kwReturn | inc | dec | rParen | rBrack | rBrace => true
  | _ => false

def startsType : TokenKind → Bool
  | ident | star | lBrack | lParen | kwFunc | kwMap | kwChan | kwInterface | kwStruct
  | arrow => true
  | _ => false

end TokenKind

end Stubwright
