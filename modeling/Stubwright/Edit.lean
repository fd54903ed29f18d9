import Stubwright.Span

/-!
# Edits of a text

An edit replaces a span of a text; an empty span inserts.  A batch of edits is checked as a whole
before any is carried out: every span has to lie in the text and between characters, and no two may
overlap.  Insertions at one place keep the order they were asked for in.
-/

namespace Stubwright

/-- The replacement of a span by a text. -/
structure Edit where
  /-- What is replaced. -/
  span : Span
  /-- What stands there instead. -/
  text : String
deriving DecidableEq, Repr, Inhabited

namespace Edit

def insert (offset : Nat) (text : String) : Edit :=
  ⟨Span.emptyAt offset, text⟩

/-- Why a batch of edits cannot be carried out. -/
inductive Error where
  /-- A span leaves the text or splits a character. -/
  | outOfBounds (span : Span) (size : Nat)
  | overlapping (first second : Span)
deriving DecidableEq, Repr

def Error.message : Error → String
  | .outOfBounds span size =>
    "span (" ++ toString span.start ++ ", " ++ toString span.stop
      ++ ") is out of bounds for source of length " ++ toString size
  | .overlapping first second =>
    "overlapping edits: (" ++ toString first.start ++ ", " ++ toString first.stop ++ ") and ("
      ++ toString second.start ++ ", " ++ toString second.stop ++ ")"

/-- Whether the span of an edit lies in a text and between characters. -/
def isInBounds (text : List Char) (e : Edit) : Bool :=
  e.span.stop ≤ Text.byteSize text && Text.isBoundary e.span.start text
    && Text.isBoundary e.span.stop text

/-- The order in which edits are carried out: by start, then by end. -/
def precedes (a b : Edit) : Bool :=
  a.span.start < b.span.start || (a.span.start == b.span.start && a.span.stop ≤ b.span.stop)

def firstOverlap? : List Edit → Option (Span × Span)
  | a :: b :: rest =>
    if a.span.overlaps b.span then some (a.span, b.span) else firstOverlap? (b :: rest)
  | _ => none

/-- Carries out edits that are in order and do not overlap on the part of a text that starts at the
offset `pos`. -/
def splice (pos : Nat) (text : List Char) : List Edit → List Char
  | [] => text
  | e :: es =>
    match Text.splitAt? (e.span.start - pos) text with
    | none => text
    | some (before, after) =>
      match Text.splitAt? e.span.size after with
      | none => text
      | some (_, rest) => before ++ e.text.toList ++ splice e.span.stop rest es

/-- Carries out a batch of edits, none of which sees the text of another. -/
def applyAll (text : List Char) (edits : List Edit) : Except Error (List Char) :=
  match edits.find? fun e => !e.isInBounds text with
  | some e => .error (.outOfBounds e.span (Text.byteSize text))
  | none =>
    let ordered := edits.mergeSort precedes
    match firstOverlap? ordered with
    | some (first, second) => .error (.overlapping first second)
    | none => .ok (splice 0 text ordered)

end Edit

end Stubwright
