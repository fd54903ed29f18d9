import Stubwright.Token.Scan

/-!
# Tokens

A text is cut into lexemes from left to right; the lexemes that are tokens stay, the others become
the `lead` of the token after them.  Where a line ends behind a token that can end a statement, a
semicolon with an empty text is inserted: at the line break, at the first line break inside a block
comment, or at the end of the text.

Tokens carry their text and their lead, so that reading them on never needs the source text: the
lead and text of consecutive tokens, put together, are the source between them.
-/

namespace Stubwright

/-- A token with its text and what stands before it. -/
structure Token where
  kind : TokenKind
  /-- The blanks, line breaks and comments since the token before. -/
  lead : String
  /-- The text of the token; empty for an inserted semicolon. -/
  text : String
  /-- The offset of the first byte of the text. -/
  start : Nat
deriving DecidableEq, Repr, Inhabited

namespace Token

/-- The offset just past the token. -/
def stop (t : Token) : Nat :=
  t.start + t.text.utf8ByteSize

def span (t : Token) : Span :=
  ⟨t.start, t.stop⟩

/-- Whether the token is a semicolon that stands for a line break. -/
def isInserted (t : Token) : Bool :=
  t.kind == .semi && t.text.isEmpty

/-- How the token is named in a message. -/
def found (t : Token) : Found :=
  if t.isInserted then .newline else .token t.text

/-- A semicolon inserted at an offset. -/
def inserted (lead : List Char) (start : Nat) : Token :=
  { kind := .semi, lead := String.ofList lead, text := "", start }

end Token

namespace Lexeme

/-- Where a failure at the offset `pos`, before the text `rest`, is.  A comment that is never closed
goes on to the end of the text. -/
def faultSite (cause : SyntaxError.Cause) (pos : Nat) (rest : List Char) : Site :=
  match cause with
  | .unterminatedComment => .range ⟨pos, pos + Text.byteSize rest⟩
  | _ => .invalid pos rest

/-- The tokens of a text whose scan has come to the offset `pos` with the characters `lead` skipped
since the last token; `open_` says whether that token lets a line break end the statement. -/
def tokensFrom (pos : Nat) (lead : List Char) (open_ : Bool) :
    List Char → Except Fault (List Token)
  | [] => .ok (if open_ then [Token.inserted lead pos] else [])
  | c :: cs =>
    match scan c cs with
    | .error cause => .error ⟨cause, some (faultSite cause pos (c :: cs))⟩
    | .ok (cls, n) =>
      let text := c :: cs.take n
      let next := pos + Text.byteSize text
      match cls with
      | .blank | .lineComment => tokensFrom next (lead ++ text) open_ (cs.drop n)
      | .newline =>
        if open_ then do
          let rest ← tokensFrom next text false (cs.drop n)
          return Token.inserted lead pos :: rest
        else tokensFrom next (lead ++ text) false (cs.drop n)
      | .blockComment =>
        let before := text.takeWhile fun d => !isBreak d
        if open_ && before.length < text.length then do
          let rest ← tokensFrom next (text.drop before.length) false (cs.drop n)
          return Token.inserted (lead ++ before) (pos + Text.byteSize before) :: rest
        else tokensFrom next (lead ++ text) open_ (cs.drop n)
      | .byteOrderMark =>
        if pos = 0 then tokensFrom next (lead ++ text) open_ (cs.drop n)
        else .error ⟨.misplacedByteOrderMark, some (.range ⟨pos, next⟩)⟩
      | .token kind => do
        let rest ← tokensFrom next [] kind.endsStatement (cs.drop n)
        return { kind, lead := String.ofList lead, text := String.ofList text, start := pos } :: rest
termination_by cs => cs.length
decreasing_by all_goals (simp only [List.length_drop, List.length_cons]; omega)

end Lexeme

/-- The tokens of a text, or the first lexical failure. -/
def tokenize (text : List Char) : Except Fault (List Token) :=
  Lexeme.tokensFrom 0 [] false text

end Stubwright
