import Stubwright.SourceFile.Parse
import Stubwright.Text.Blank

/-!
# Layout of a source file

The layout pass accepts a text only if it is a source file, and then settles its lines: line ends
are single line feeds, no line ends in spaces or tabs, blank lines neither start nor end the file
nor follow each other, and the file ends in one line feed.  Lines inside raw string literals keep
their blanks.
-/

namespace Stubwright.Layout

/-- The text with every carriage return before a line feed left out. -/
def unixLines : List Char → List Char
  | [] => []
  | [c] => [c]
  | c :: d :: cs => if c = '\r' && d = '\n' then unixLines (d :: cs) else c :: unixLines (d :: cs)

/-- The ranges of the raw string literals among tokens. -/
def rawSpans (tokens : List Token) : List Span :=
  (tokens.filter (·.kind == .rawStringLit)).map (·.span)

/-- Whether an offset lies strictly inside one of these ranges. -/
def isInside (spans : List Span) (offset : Nat) : Bool :=
  spans.any fun s => s.start < offset && offset < s.stop

/-- A line after its blanks at the end are settled. -/
structure Line where
  /-- What is kept of the line, without its line feed. -/
  body : List Char
  startsInside : Bool

def Line.isBlank (l : Line) : Bool :=
  l.body.isEmpty && !l.startsInside

/-- The lines of a text from the offset `pos` on, with blanks at their ends dropped outside of the
given ranges. -/
def settle (spans : List Span) (pos : Nat) : List (List Char) → List Line
  | [] => []
  | line :: lines =>
    let body := if line.getLast? = some '\n' then line.dropLast else line
    let kept :=
      if isInside spans (pos + Text.byteSize body) then body
      else Text.dropEndWhile (fun c => c = ' ' || c = '\t') body
    ⟨kept, isInside spans pos⟩ :: settle spans (pos + Text.byteSize line) lines

/-- Puts lines together, runs of blank lines as one and none at either end; `started` says whether
a line is already out and `blank` whether a blank line waits for the next one. -/
def join (started blank : Bool) : List Line → List Char
  | [] => []
  | line :: lines =>
    if line.isBlank then join started started lines
    else (if blank then ['\n'] else []) ++ line.body ++ '\n' :: join true false lines

/-- Settles the layout of a source file. -/
def format (text : String) : Except SyntaxError String := do
  let source := unixLines text.toList
  let _ ← SourceFile.parse (String.ofList source)
  match tokenize source with
  | .error fault => .error (fault.locate source)
  | .ok tokens =>
    let lines := settle (rawSpans tokens) 0 (Text.linesWithEnds source)
    return String.ofList (join false false lines)

end Stubwright.Layout
