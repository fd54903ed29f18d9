/-!
# Byte offsets in a text

Every offset of the library counts the bytes of a text's UTF-8 encoding, while the text itself is a
list of characters.  This module holds the bridge: the size of a text in bytes, and cutting a text
at a byte offset, which fails where the cut would split a character.  The main statement is
`splitAt?_eq_some_iff`: a cut is exactly a way to write the text as two parts, the first of which
has the wanted size.
-/

namespace Stubwright.Text

/-- The number of bytes of a text in UTF-8. -/
def byteSize : List Char → Nat
  | [] => 0
  | c :: cs => c.utf8Size + byteSize cs

@[simp] theorem byteSize_nil : byteSize [] = 0 := rfl

@[simp] theorem byteSize_cons (c : Char) (cs : List Char) :
    byteSize (c :: cs) = c.utf8Size + byteSize cs := rfl

@[simp] theorem byteSize_append (a b : List Char) :
    byteSize (a ++ b) = byteSize a + byteSize b := by
  induction a with
  | nil => simp
  | cons c cs ih => simp [ih, Nat.add_assoc]

/-- Cuts a text after its first `n` bytes.  There is no result when the text is shorter or the cut
would split a character. -/
def splitAt? : Nat → List Char → Option (List Char × List Char)
  | 0, cs => some ([], cs)
  | _ + 1, [] => none
  | n + 1, c :: cs =>
    if c.utf8Size ≤ n + 1 then
      (splitAt? (n + 1 - c.utf8Size) cs).map fun (before, after) => (c :: before, after)
    else none

/-- A cut writes the text as two parts, the first of the wanted size, and every such writing is
the cut. -/
theorem splitAt?_eq_some_iff {n : Nat} {cs before after : List Char} :
    splitAt? n cs = some (before, after) ↔ cs = before ++ after ∧ byteSize before = n := by
  induction cs generalizing n before with
  | nil =>
    cases n with
    | zero =>
      cases before <;> simp [splitAt?, eq_comm]
    | succ n => cases before <;> simp [splitAt?]
  | cons c cs ih =>
    have hc := c.utf8Size_pos
    cases n with
    | zero =>
      cases before with
      | nil => simp [splitAt?, eq_comm]
      | cons d ds =>
        have hd := d.utf8Size_pos
        simp only [splitAt?, Option.some.injEq, Prod.mk.injEq, byteSize_cons]
        constructor
        · rintro ⟨h, -⟩; cases h
        · rintro ⟨-, h⟩; omega
    | succ n =>
      cases before with
      | nil =>
        simp only [splitAt?]
        split <;> simp
      | cons d ds =>
        simp only [splitAt?]
        split
        · rename_i hle
          simp only [Option.map_eq_some_iff, Prod.mk.injEq, List.cons.injEq, List.cons_append,
            byteSize_cons, Prod.exists]
          constructor
          · rintro ⟨a, b, h, ⟨rfl, rfl⟩, rfl⟩
            obtain ⟨rfl, hb⟩ := ih.1 h
            exact ⟨⟨rfl, rfl⟩, by omega⟩
          · rintro ⟨⟨rfl, rfl⟩, hb⟩
            exact ⟨ds, after, ih.2 ⟨rfl, by omega⟩, ⟨rfl, rfl⟩, rfl⟩
        · rename_i hle
          simp only [List.cons_append, List.cons.injEq, byteSize_cons, reduceCtorEq, false_iff]
          rintro ⟨⟨rfl, -⟩, hb⟩
          omega

/-- Whether the offset `n` lies between two characters of the text, or at one of its ends. -/
def isBoundary (n : Nat) (cs : List Char) : Bool :=
  (splitAt? n cs).isSome

/-- The part of a text from one offset to another, when both are boundaries in order. -/
def slice? (start stop : Nat) (cs : List Char) : Option (List Char) :=
  if start ≤ stop then do
    let (_, after) ← splitAt? start cs
    let (middle, _) ← splitAt? (stop - start) after
    return middle
  else none

end Stubwright.Text
