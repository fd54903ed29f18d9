import Stubwright.Text.Bytes

/-!
# Spans

A span is a range of byte offsets, its start included and its end excluded.  An empty span marks a
place between two characters.
-/

namespace Stubwright

/-- A range of byte offsets in a text. -/
structure Span where
  /-- The offset of the first byte. -/
  start : Nat
  /-- The offset just past the last byte. -/
  stop : Nat
deriving DecidableEq, Repr, Inhabited

namespace Span

/-- The span between two offsets; an end before the start is moved up to it. -/
def between (start stop : Nat) : Span :=
  ⟨start, max start stop⟩

def emptyAt (offset : Nat) : Span :=
  ⟨offset, offset⟩

def size (s : Span) : Nat :=
  s.stop - s.start

def isEmpty (s : Span) : Bool :=
  s.start == s.stop

/-- Whether two spans share a byte, or one is an empty span strictly inside the other.  Spans that
only touch do not overlap. -/
def overlaps (s t : Span) : Bool :=
  s.start < t.stop && t.start < s.stop

/-- The text a span covers, when it lies in the text and splits no character. -/
def slice? (s : Span) (text : List Char) : Option (List Char) :=
  Text.slice? s.start s.stop text

/-- The span moved up by a number of bytes. -/
def shift (n : Nat) (s : Span) : Span :=
  ⟨s.start + n, s.stop + n⟩

end Span

end Stubwright
