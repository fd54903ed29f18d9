/-!
# Lines of a text

A line feed ends a line.  Lines and columns count from one, and a column counts bytes.
-/

namespace Stubwright.Text

/-- Cuts a text at every occurrence of a separator; a text without one is a single piece. -/
def splitOn (sep : Char) : List Char → List (List Char)
  | [] => [[]]
  | c :: cs =>
    if c = sep then [] :: splitOn sep cs
    else match splitOn sep cs with
      | [] => [[c]]
      | piece :: pieces => (c :: piece) :: pieces

/-- The lines of a text, each with the line feed that ends it; only the last may lack one. -/
def linesWithEnds : List Char → List (List Char)
  | [] => []
  | c :: cs =>
    if c = '\n' then [c] :: linesWithEnds cs
    else match linesWithEnds cs with
      | [] => [[c]]
      | line :: lines => (c :: line) :: lines

/-- A line without its line feed, and without the carriage return before that line feed. -/
def chomp (line : List Char) : List Char :=
  match line.reverse with
  | '\n' :: '\r' :: rest => rest.reverse
  | '\n' :: rest => rest.reverse
  | _ => line

/-- The lines of a text.  A line ends at a line feed, with or without a carriage return before it,
and nothing follows the last line feed. -/
def lines (cs : List Char) : List (List Char) :=
  (linesWithEnds cs).map chomp

/-- Line and column of an offset, counted on from the given ones.  An offset inside a character
moves the column by the bytes before it; one past the end means the end. -/
def positionFrom : (line col offset : Nat) → List Char → Nat × Nat
  | line, col, 0, _ => (line, col)
  | line, col, _ + 1, [] => (line, col)
  | line, col, n + 1, c :: cs =>
    if c = '\n' then positionFrom (line + 1) 1 n cs
    else if c.utf8Size ≤ n + 1 then positionFrom line (col + c.utf8Size) (n + 1 - c.utf8Size) cs
    else (line, col + (n + 1))

/-- Line and column of an offset. -/
def position (cs : List Char) (offset : Nat) : Nat × Nat :=
  positionFrom 1 1 offset cs

/-- The offset of the start of the line that holds `offset`, when the scan stands at `at_` and the
current line starts at `start`. -/
def lineStartFrom : (start at_ offset : Nat) → List Char → Nat
  | start, _, _, [] => start
  | start, at_, offset, c :: cs =>
    if offset ≤ at_ then start
    else if c = '\n' then lineStartFrom (at_ + 1) (at_ + 1) offset cs
    else lineStartFrom start (at_ + c.utf8Size) offset cs

/-- The offset of the start of the line that holds `offset`. -/
def lineStart (cs : List Char) (offset : Nat) : Nat :=
  lineStartFrom 0 0 offset cs

/-- The offset of the first line feed at or after `offset`, or of the end of the text, when the
scan stands at `at_`. -/
def lineEndFrom : (at_ offset : Nat) → List Char → Nat
  | at_, _, [] => at_
  | at_, offset, c :: cs =>
    if c = '\n' && offset ≤ at_ then at_ else lineEndFrom (at_ + c.utf8Size) offset cs

/-- The offset just past the line that holds `offset`, its line feed excluded. -/
def lineEnd (cs : List Char) (offset : Nat) : Nat :=
  lineEndFrom 0 offset cs

end Stubwright.Text
