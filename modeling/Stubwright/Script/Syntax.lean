/-!
# Shell scripts

The syntax of shell scripts.  A script is read byte by byte, and a byte is held as the character of
its number; so is every text that a script works on.

A word is a list of pieces.  It keeps what was quoted in it apart from what was not, since bare
text may be a pattern, and the value of a bare parameter is split into fields.
-/

namespace Stubwright.Script

mutual

/-- A part of a word.  A command that stands for its output is held as a `β`. -/
inductive Piece (β : Type) where
  /-- A bare character. -/
  | char (c : Char)
  | quoted (c : Char)
  /-- Quotes, which make a field even if nothing is in them. -/
  | quotes
  | param (name : String) (use : Use β) (quoted : Bool)
  | command (body : β) (quoted : Bool)
  | arith (expr : List (Piece β)) (quoted : Bool)

/-- What is made of the value of a parameter.  Where a form has a colon, `ifEmpty` holds, and an
empty parameter counts as one that is not set. -/
inductive Use (β : Type) where
  /-- The value itself. -/
  | plain
  | length
  | default (ifEmpty : Bool) (word : List (Piece β))
  /-- The same, and the parameter gets the value of the word. -/
  | assign (ifEmpty : Bool) (word : List (Piece β))
  /-- The value, which has to be there. -/
  | require (ifEmpty : Bool)
  | alternative (ifEmpty : Bool) (word : List (Piece β))
  /-- The value without what a pattern matches at one of its ends. -/
  | trim (atStart longest : Bool) (pattern : List (Piece β))
  /-- A form that does not exist. -/
  | bad

end

/-- What is done to a stream. -/
inductive Direction where
  /-- It is read from a file. -/
  | input
  /-- It is written to a file from its start. -/
  | output
  /-- It is written to the end of a file. -/
  | append
  /-- It becomes the same as another stream. -/
  | copy
deriving DecidableEq, Repr

inductive Redirect (β : Type) where
  | word (stream : Nat) (direction : Direction) (target : List (Piece β))
  /-- From a document in the script, given by its number. -/
  | document (stream : Nat) (index : Nat)

inductive Command where
  | simple (assigned : List (String × List (Piece (List Command))))
      (words : List (List (Piece (List Command)))) (redirects : List (Redirect (List Command)))
  | redirected (body : Command) (redirects : List (Redirect (List Command)))
  | group (body : List Command)
  /-- Commands in a shell of their own. -/
  | subshell (body : List Command)
  | branch (condition body otherwise : List Command)
  /-- A loop that goes on as long as its condition succeeds, or fails if `untilTrue` holds. -/
  | loop (untilTrue : Bool) (condition body : List Command)
  /-- A loop over fields, or over the parameters of the script. -/
  | each (name : String) (words : Option (List (List (Piece (List Command)))))
      (body : List Command)
  /-- A choice by patterns. -/
  | choose (subject : List (Piece (List Command)))
      (arms : List (List (List (Piece (List Command))) × List Command))
  | define (name : String) (body : Command)
  /-- Commands of which each reads what the one before writes. -/
  | pipeline (stages : List Command)
  /-- A command whose success counts as failure. -/
  | negated (body : Command)
  | andThen (first second : Command)
  | orElse (first second : Command)
  | background (body : Command)
deriving Inhabited

abbrev Word := List (Piece (List Command))

def Piece.bare? {β : Type} : Piece β → Option Char
  | .char c => some c
  | _ => none

/-- The character that a piece is, whether quoted or not. -/
def Piece.char? {β : Type} : Piece β → Option Char
  | .char c => some c
  | .quoted c => some c
  | _ => none

def Piece.isQuoted {β : Type} : Piece β → Bool
  | .quoted _ => true
  | .quotes => true
  | _ => false

/-- The text of a word without quotes, parameters and commands. -/
def literal? (w : Word) : Option String :=
  (w.mapM Piece.bare?).map String.ofList

def isNameStart (c : Char) : Bool :=
  c.isAlpha || c = '_'

def isNameChar (c : Char) : Bool :=
  c.isAlphanum || c = '_'

def isName (name : List Char) : Bool :=
  name.head?.any isNameStart && name.all isNameChar

end Stubwright.Script
