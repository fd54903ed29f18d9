import Stubwright.Layout
import Stubwright.Proofs.Lines
import Stubwright.Proofs.Outline

/-!
# Settling a layout character by character

The layout pass works on whole lines.  `tidy` does the same from left to right on marked characters:
it knows where on the page it stands, holds blanks back until something follows them on their line,
and copies every character of a raw string literal.

* `format_eq_ok_iff`: the layout pass is `tidy` on the source files.
-/

namespace Stubwright.Layout

open List
open Text

open Lexeme

variable {x : Marked} {c : Char} {v : List Char} {started blank : Bool} {pos offset : Nat}
  {ps : List Piece} {spans : List Span} {q : Char → Bool} {cs : List Char} {start : Bool}

/-- Where the next character is to be written. -/
inductive Place where
  /-- Nothing is written yet. -/
  | top
  /-- At the start of a line, below a line that is not blank. -/
  | fresh
  /-- At the start of a line, below blank lines that are not written yet. -/
  | gap
  /-- In a line with something in it. -/
  | inside
deriving DecidableEq, Repr

namespace Place

def lineEnd : Place → List Char
  | inside => ['\n']
  | _ => []

/-- The place behind the end of a line. -/
def next : Place → Place
  | top => top
  | fresh => gap
  | gap => gap
  | inside => fresh

/-- What is written before a line that is not blank. -/
def opening : Place → List Char
  | gap => ['\n']
  | _ => []

end Place

/-- The blanks that are dropped at the end of a line. -/
def isTrimmed (c : Char) : Bool :=
  c = ' ' || c = '\t'

/-- Whether a character is written in any case: it is no blank and no line feed, or it belongs to a
raw string literal. -/
def stays (x : Marked) : Bool :=
  x.2 || !(x.1 = '\n' || isTrimmed x.1)

/-- Settles the layout of marked characters; `held` are the blanks since the last character that was
written or the start of the line. -/
def tidy (p : Place) (held : List Char) : List Marked → List Marked
  | [] => plain p.lineEnd
  | x :: m =>
    if stays x then plain (p.opening ++ held) ++ x :: tidy .inside [] m
    else if x.1 = '\n' then plain p.lineEnd ++ tidy p.next [] m
    else tidy p (held ++ [x.1]) m

section

variable {p : Place} {held : List Char} {m : List Marked}

theorem tidy_stays (hx : stays x = true) :
    tidy p held (x :: m) = plain (p.opening ++ held) ++ x :: tidy .inside [] m := by
  rw [tidy, if_pos hx]

theorem tidy_newline : tidy p held (('\n', false) :: m) = plain p.lineEnd ++ tidy p.next [] m := by
  rw [tidy, if_neg (by decide), if_pos rfl]

theorem tidy_blank (hc : isTrimmed c = true) :
    tidy p held ((c, false) :: m) = tidy p (held ++ [c]) m := by
  have hfeed : c ≠ '\n' := by
    rintro rfl
    cases hc
  rw [tidy, if_neg (by simp [stays, hc]), if_neg hfeed]

theorem tidy_blanks {text : List Char} (htext : text.all isTrimmed = true) :
    tidy p held (plain text ++ m) = tidy p (held ++ text) m := by
  induction text generalizing held with
  | nil => rw [append_nil]; rfl
  | cons c text ih =>
    obtain ⟨hc, htext⟩ := (Bool.and_eq_true _ _).mp htext
    rw [plain, map_cons, cons_append, tidy_blank hc, ih htext, append_assoc,
      singleton_append]

theorem stays_cases (x : Marked) :
    stays x = true ∨ x = ('\n', false) ∨ ∃ c, isTrimmed c = true ∧ x = (c, false) := by
  obtain ⟨c, b⟩ := x
  cases b with
  | true => exact .inl rfl
  | false =>
    by_cases hfeed : c = '\n'
    · exact .inr (.inl (by rw [hfeed]))
    · cases hc : isTrimmed c with
      | true => exact .inr (.inr ⟨c, hc, rfl⟩)
      | false => exact .inl (by simp [stays, hfeed, hc])

/-- All of a line is written up to a character that stays. -/
theorem tidy_line {l : List Marked} (hl : ('\n', false) ∉ l) (hx : stays x = true) :
    tidy p held (l ++ x :: m) = plain (p.opening ++ held) ++ l ++ x :: tidy .inside [] m := by
  induction l generalizing p held with
  | nil => rw [nil_append, tidy_stays hx, append_nil]
  | cons y l ih =>
    obtain ⟨hy, hrest⟩ : ('\n', false) ≠ y ∧ ('\n', false) ∉ l := by
      simpa only [mem_cons, not_or] using hl
    rcases stays_cases y with hstays | rfl | ⟨c, hc, rfl⟩
    · rw [cons_append, tidy_stays hstays, ih hrest]
      simp [Place.opening]
    · exact absurd rfl hy
    · rw [cons_append, tidy_blank hc, ih hrest]
      simp

end

/-- A line of marked characters is blank, or has a last character that is no blank. -/
theorem line_cases (l : List Marked) :
    (∃ text, text.all isTrimmed = true ∧ l = plain text) ∨
      ∃ l' x text, (x.2 || !isTrimmed x.1) = true ∧ text.all isTrimmed = true ∧
        l = l' ++ x :: plain text := by
  induction l using List.reverseRecOn with
  | nil => exact .inl ⟨[], rfl, rfl⟩
  | append_singleton l y ih =>
    obtain ⟨c, b⟩ := y
    cases hy : b || !isTrimmed c with
    | true => exact .inr ⟨l, (c, b), [], hy, rfl, rfl⟩
    | false =>
      obtain ⟨rfl, hc⟩ : b = false ∧ isTrimmed c = true := by simpa using hy
      rcases ih with ⟨text, htext, rfl⟩ | ⟨l', x, text, hx, htext, rfl⟩
      · exact .inl ⟨text ++ [c], by simp [htext, hc], by simp⟩
      · exact .inr ⟨l', x, text ++ [c], hx, by simp [htext, hc], by simp⟩

/-! ## The marks of raw literals -/

/-- The marks of characters from the offset `pos` on are those of the raw literals at these ranges,
and a raw literal starts and ends with something other than a line feed or a blank. -/
structure Agrees (spans : List Span) (pos : Nat) (m : List Marked) : Prop where
  feed : ∀ a b k, m = a ++ ('\n', b) :: k → isInside spans (pos + byteSize (chars a)) = b ∧
    isInside spans (pos + byteSize (chars a) + 1) = b
  behind : ∀ a x k, m = a ++ ('\n', true) :: x :: k → x.2 = true
  edge : ∀ a x k, m = a ++ x :: k → x.2 = true → isTrimmed x.1 = true → k.head?.any Prod.snd = true
  first : isInside spans pos = true → m.head?.any Prod.snd = true
  stop : isInside spans (pos + byteSize (chars m)) = false

namespace Agrees

variable {spans : List Span} {pos : Nat} {l k : List Marked} {b : Bool}

theorem tail (h : Agrees spans pos (l ++ ('\n', b) :: k)) :
    Agrees spans (pos + byteSize (chars l) + 1) k := by
  have hsize : ∀ a : List Marked, pos + byteSize (chars l) + 1 + byteSize (chars a)
      = pos + byteSize (chars (l ++ ('\n', b) :: a)) := by
    intro a
    rw [chars_append, byteSize_append, chars_cons, byteSize_cons]
    have hfeed : (('\n', b) : Marked).1.utf8Size = 1 := rfl
    omega
  have hstop : isInside spans (pos + byteSize (chars l) + 1 + byteSize (chars k)) = false := by
    rw [hsize]
    exact h.stop
  refine ⟨?_, ?_, ?_, ?_, hstop⟩
  · rintro a b' k' rfl
    rw [hsize]
    exact h.feed (l ++ ('\n', b) :: a) b' k' (by simp)
  · rintro a x k' rfl
    exact h.behind (l ++ ('\n', b) :: a) x k' (by simp)
  · rintro a x k' rfl
    exact h.edge (l ++ ('\n', b) :: a) x k' (by simp)
  · intro hinside
    rw [(h.feed l b k rfl).2] at hinside
    subst hinside
    cases k with
    | nil =>
      have hfeed := (h.feed l true [] rfl).2
      exact absurd (hfeed.symm.trans hstop) (by decide)
    | cons x k => simpa using h.behind l x k rfl

end Agrees

/-! ## Lines -/

/-- A text has no line feed, or its first line ends at one. -/
theorem feed_cases (m : List Marked) :
    '\n' ∉ chars m ∨ ∃ l b k, '\n' ∉ chars l ∧ m = l ++ ('\n', b) :: k := by
  induction m with
  | nil => exact .inl (by simp)
  | cons x m ih =>
    obtain ⟨c, b⟩ := x
    by_cases hc : c = '\n'
    · exact .inr ⟨[], b, m, by simp, by rw [hc, nil_append]⟩
    · rcases ih with hm | ⟨l, b', k, hl, rfl⟩
      · exact .inl (by simpa [Ne.symm hc] using hm)
      · exact .inr ⟨(c, b) :: l, b', k, by simpa [Ne.symm hc] using hl, rfl⟩

theorem dropEndWhile_append {u : List Char} (hc : q c = false)
    (hv : v.all q = true) : dropEndWhile q (u ++ c :: v) = u ++ [c] := by
  have hrev : (u ++ c :: v).reverse = v.reverse ++ (c :: u.reverse) := by simp
  rw [dropEndWhile, hrev, dropWhile_append_of_pos (by simpa using hv),
    dropWhile_cons_of_neg (by simp [hc])]
  simp

theorem dropEndWhile_all (hv : v.all q = true) : dropEndWhile q v = [] := by
  rw [dropEndWhile, dropWhile_eq_nil_iff.2 (by simpa using hv), reverse_nil]

/-- The place where a line is to be written, given what the pass knows between lines. -/
def placeOf (started blank : Bool) : Place :=
  if started then if blank then .gap else .fresh else .top

theorem opening_placeOf (hblank : blank = true → started = true) :
    (placeOf started blank).opening = if blank then ['\n'] else [] := by
  cases blank with
  | true => rw [hblank rfl]; rfl
  | false => cases started <;> rfl

theorem settle_line (spans : List Span) (pos : Nat) (l : List Char) (lines : List (List Char)) :
    settle spans pos ((l ++ ['\n']) :: lines)
      = ⟨if isInside spans (pos + byteSize l) then l else dropEndWhile isTrimmed l,
          isInside spans pos⟩ :: settle spans (pos + byteSize l + 1) lines := by
  have hfeed : byteSize (l ++ ['\n']) = byteSize l + 1 := by
    rw [byteSize_append]
    rfl
  rw [settle, if_pos (getLast?_concat ..), dropLast_concat, hfeed, Nat.add_assoc]
  rfl

theorem settle_last (spans : List Span) (pos : Nat) {l : List Char} (hl : '\n' ∉ l) :
    settle spans pos [l]
      = [⟨if isInside spans (pos + byteSize l) then l else dropEndWhile isTrimmed l,
          isInside spans pos⟩] := by
  have hlast : l.getLast? ≠ some '\n' := fun h => hl (mem_of_getLast? h)
  rw [settle, if_neg hlast]
  rfl

/-- A line that ends outside of raw literals is left out if it is blank, and else written without
its blanks at the end. -/
theorem tidy_join_line {l k : List Marked} (h : Agrees spans pos (l ++ k))
    (hl : '\n' ∉ chars l) (hk : k.head?.any Prod.snd = false)
    (hblank : blank = true → started = true) (lines : List Line) :
    (∃ held, join started blank (⟨dropEndWhile isTrimmed (chars l), isInside spans pos⟩ :: lines)
        = join started started lines ∧
      tidy (placeOf started blank) [] (l ++ k) = tidy (placeOf started blank) held k) ∨
    ∃ out held, join started blank
          (⟨dropEndWhile isTrimmed (chars l), isInside spans pos⟩ :: lines)
        = chars out ++ '\n' :: join true false lines ∧
      tidy (placeOf started blank) [] (l ++ k) = out ++ tidy .inside held k := by
  have hhead : ∀ text : List Char, (plain text ++ k).head?.any Prod.snd = false := by
    intro text
    cases text with
    | nil => exact hk
    | cons c text => rfl
  rcases line_cases l with ⟨text, htext, rfl⟩ | ⟨l', x, text, hx, htext, rfl⟩
  · have houtside : isInside spans pos = false := by
      by_contra hinside
      have hflag := h.first (by simpa using hinside)
      rw [hhead text] at hflag
      cases hflag
    refine .inl ⟨text, ?_, tidy_blanks htext⟩
    rw [chars_map, dropEndWhile_all htext, houtside, join]
    exact if_pos rfl
  · have hx' : isTrimmed x.1 = false := by
      by_contra htrimmed
      have hflag : x.2 = true := by simpa [htrimmed] using hx
      have hnext := h.edge l' x (plain text ++ k) (by simp) hflag (by simpa using htrimmed)
      rw [hhead text] at hnext
      cases hnext
    obtain ⟨hl', hxfeed⟩ : '\n' ∉ chars l' ∧ x.1 ≠ '\n' := by
      rw [chars_append, chars_cons, mem_append, mem_cons, not_or, not_or] at hl
      exact ⟨hl.1, Ne.symm hl.2.1⟩
    have hstays : stays x = true := by simp [stays, hx', hxfeed]
    have hnone : ('\n', false) ∉ l' := fun hmem => hl' (mem_map_of_mem hmem)
    refine .inr ⟨plain (placeOf started blank).opening ++ (l' ++ [x]), text, ?_, ?_⟩
    · have hkept : dropEndWhile isTrimmed (chars (l' ++ x :: plain text)) = chars (l' ++ [x]) := by
        rw [chars_append, chars_cons, chars_map, dropEndWhile_append hx' htext, chars_append]
        rfl
      have hnotBlank : Line.isBlank ⟨chars (l' ++ [x]), isInside spans pos⟩ = false := by
        simp [Line.isBlank]
      rw [hkept, join, if_neg (by rw [hnotBlank]; exact Bool.false_ne_true),
        chars_append (plain _), chars_map, opening_placeOf hblank]
    · rw [append_assoc, cons_append, tidy_line hnone hstays, tidy_blanks htext]
      simp

/-- Settling character by character writes what settling line by line does. -/
theorem join_settle {m : List Marked} (h : Agrees spans pos m)
    (hblank : blank = true → started = true) :
    join started blank (settle spans pos (linesWithEnds (chars m)))
      = chars (tidy (placeOf started blank) [] m) := by
  induction hlen : m.length using Nat.strong_induction_on generalizing pos m started blank with
  | _ n ih =>
    have hplace : (placeOf started blank).lineEnd = [] ∧
        (placeOf started blank).next = placeOf started started := by
      cases started <;> cases blank <;> exact ⟨rfl, rfl⟩
    rcases feed_cases m with hm | ⟨l, b, k, hl, rfl⟩
    · cases m with
      | nil => rw [tidy, hplace.1]; rfl
      | cons x m =>
        have hlines : linesWithEnds (chars (x :: m)) = [chars (x :: m)] :=
          linesWithEnds_last hm
        rw [hlines, settle_last _ _ hm, h.stop, if_neg Bool.false_ne_true]
        have hline := tidy_join_line (k := []) (by rwa [append_nil]) hm rfl hblank []
        rw [append_nil] at hline
        rcases hline with ⟨held, hjoin, htidy⟩ | ⟨out, held, hjoin, htidy⟩
        · rw [hjoin, htidy, tidy, hplace.1]
          rfl
        · rw [hjoin, htidy, tidy, chars_append]
          rfl
    · have hsmall : k.length < n := by
        rw [← hlen, length_append, length_cons]
        omega
      rw [chars_append, chars_cons, linesWithEnds_line hl, settle_line, (h.feed l b k rfl).1]
      cases b with
      | false =>
        rw [if_neg Bool.false_ne_true]
        rcases tidy_join_line h hl rfl hblank (settle spans _ (linesWithEnds (chars k)))
          with ⟨held, hjoin, htidy⟩ | ⟨out, held, hjoin, htidy⟩
        · rw [hjoin, htidy, tidy_newline, hplace.1, hplace.2]
          exact ih _ hsmall h.tail id rfl
        · rw [hjoin, htidy, tidy_newline, chars_append, chars_append]
          exact congrArg (chars out ++ '\n' :: ·) (ih _ hsmall h.tail (by simp) rfl)
      | true =>
        have hflag : k.head?.any Prod.snd = true := h.tail.first (h.feed l true k rfl).2
        have hnotBlank : Line.isBlank ⟨chars l, isInside spans pos⟩ = false := by
          cases l with
          | nil =>
            have hinside : isInside spans pos = true := (h.feed [] true k rfl).1
            simp [Line.isBlank, hinside]
          | cons x l => rfl
        have hnone : ('\n', false) ∉ l := fun hmem => hl (mem_map_of_mem hmem)
        have hstart : tidy .inside [] k = tidy (placeOf true false) [] k := by
          cases k with
          | nil => cases hflag
          | cons x k =>
            have hx : stays x = true := by simp_all [stays]
            rw [tidy_stays hx, tidy_stays hx]
            rfl
        rw [if_pos rfl, join, if_neg (by rw [hnotBlank]; exact Bool.false_ne_true),
          tidy_line hnone rfl, chars_append, chars_append, chars_cons, hstart,
          ih _ hsmall h.tail (by simp) rfl, append_nil, chars_map, opening_placeOf hblank]

/-! ## Raw literals among pieces -/

/-- The ranges of the raw literals among pieces from the offset `pos` on. -/
def rawSpansOf (pos : Nat) : List Piece → List Span
  | [] => []
  | p :: ps => (if p.cls == .token .rawStringLit then [⟨pos, pos + byteSize p.text⟩] else [])
      ++ rawSpansOf (pos + byteSize p.text) ps

theorem rawSpans_tokensOf (ps : List Piece) (pos : Nat) (lead : List Char) (open_ : Bool) :
    rawSpans (tokensOf pos lead open_ ps) = rawSpansOf pos ps := by
  induction ps generalizing pos lead open_ with
  | nil => cases open_ <;> rfl
  | cons p ps ih =>
    obtain ⟨cls, text⟩ := p
    rcases cls.token_or with ⟨kind, rfl⟩ | hcls
    · rw [tokensOf_token, rawSpansOf, token_beq_token, ← ih _ [] kind.endsStatement, rawSpans, rawSpans,
        filter_cons]
      cases kind == .rawStringLit with
      | true => simp [Token.span, Token.stop, ← byteSize_toList]
      | false => rfl
    · rw [tokensOf_trivia hcls, rawSpansOf, beq_false_of_ne (hcls .rawStringLit),
        if_neg Bool.false_ne_true, nil_append]
      split
      · rw [← ih _ (fromBreak text) false]
        rfl
      · exact ih _ _ _

theorem isInside_rawSpansOf_cons (p : Piece) (ps : List Piece) (pos offset : Nat) :
    isInside (rawSpansOf pos (p :: ps)) offset
      = (((p.cls == .token .rawStringLit) && decide (pos < offset) &&
          decide (offset < pos + byteSize p.text)) ||
        isInside (rawSpansOf (pos + byteSize p.text) ps) offset) := by
  rw [rawSpansOf, isInside, any_append]
  congr 1
  cases p.cls == .token .rawStringLit with
  | true => simp
  | false => rfl

theorem isInside_of_le (h : offset ≤ pos) : isInside (rawSpansOf pos ps) offset = false := by
  induction ps generalizing pos with
  | nil => rfl
  | cons p ps ih =>
    have hout : ¬(pos < offset) := by omega
    simp [isInside_rawSpansOf_cons, ih (Nat.le_add_right_of_le h), hout]

theorem byteSize_textOf_cons (p : Piece) (ps : List Piece) :
    byteSize (textOf (p :: ps)) = byteSize p.text + byteSize (textOf ps) := by
  rw [textOf, flatMap_cons, byteSize_append]
  rfl

theorem isInside_append (ps qs : List Piece) (h : pos + byteSize (textOf ps) ≤ offset) :
    isInside (rawSpansOf pos (ps ++ qs)) offset
      = isInside (rawSpansOf (pos + byteSize (textOf ps)) qs) offset := by
  induction ps generalizing pos with
  | nil => rfl
  | cons p ps ih =>
    rw [byteSize_textOf_cons, ← Nat.add_assoc] at h
    have hout : ¬(offset < pos + byteSize p.text) := by omega
    rw [cons_append, isInside_rawSpansOf_cons, ih h, byteSize_textOf_cons, ← Nat.add_assoc]
    simp [hout]

theorem isInside_cons {p : Piece} (h : offset ≤ pos + byteSize p.text) :
    isInside (rawSpansOf pos (p :: ps)) offset
      = ((p.cls == .token .rawStringLit) && decide (pos < offset) &&
          decide (offset < pos + byteSize p.text)) := by
  rw [isInside_rawSpansOf_cons, isInside_of_le h, Bool.or_false]

/-- The piece that a marked character belongs to. -/
theorem paint_cases {a k : List Marked} (h : paint ps = a ++ x :: k) :
    ∃ ps₁ p ps₂ u v, ps = ps₁ ++ p :: ps₂ ∧ p.text = u ++ x.1 :: v ∧
      x.2 = (p.cls == .token .rawStringLit) ∧ chars a = textOf ps₁ ++ u ∧
      k = v.map (·, x.2) ++ paint ps₂ := by
  induction ps generalizing a with
  | nil => cases a <;> cases h
  | cons p ps ih =>
    rw [paint_cons, append_eq_append_iff] at h
    rcases h with ⟨a', rfl, hrest⟩ | ⟨k', hp, hk⟩
    · obtain ⟨ps₁, q, ps₂, u, v, rfl, htext, hx, ha, hk⟩ := ih hrest
      refine ⟨p :: ps₁, q, ps₂, u, v, rfl, htext, hx, ?_, hk⟩
      rw [chars_append, chars_map, ha, textOf, textOf, flatMap_cons, append_assoc]
    · cases k' with
      | nil =>
        obtain ⟨ps₁, q, ps₂, u, v, rfl, htext, hx, ha, hk⟩ := ih (a := []) (by simpa using hk.symm)
        refine ⟨p :: ps₁, q, ps₂, u, v, rfl, htext, hx, ?_, hk⟩
        obtain ⟨hps, rfl⟩ := append_eq_nil_iff.1 ha.symm
        rw [← append_nil a, ← hp, chars_map, textOf, flatMap_cons, ← textOf, hps]
        simp
      | cons y k' =>
        obtain ⟨rfl, rfl⟩ := List.cons.inj hk
        obtain ⟨u, w, htext, rfl, hw⟩ := map_eq_append_iff.1 hp
        obtain ⟨c, v, rfl, rfl, rfl⟩ := map_eq_cons_iff.1 hw
        exact ⟨[], p, ps, u, v, rfl, htext, rfl, by rw [chars_map]; rfl, rfl⟩

theorem raw_of_cut (h : Cut start cs ps) :
    ∀ p ∈ ps, (p.cls == .token .rawStringLit) = true → ∃ u, p.text = '\x60' :: u ++ ['\x60'] := by
  induction h with
  | nil => simp
  | @cons start cls c v z ps hscan hmark hrest ih =>
    intro p hp hcls
    rcases mem_cons.1 hp with rfl | hp
    · obtain rfl : cls = .token .rawStringLit := beq_iff_eq.1 hcls
      exact raw_of_scan hscan
    · exact ih p hp hcls

/-- A character of a raw literal other than a quote has something before and behind it. -/
theorem raw_between {w u : List Char} (h : u ++ c :: v = '\x60' :: w ++ ['\x60'])
    (hc : c ≠ '\x60') : u ≠ [] ∧ v ≠ [] := by
  refine ⟨?_, ?_⟩
  · rintro rfl
    exact hc (List.cons.inj h).1
  · rintro rfl
    exact hc (append_inj_right' h rfl |> List.cons.inj).1

/-- The marks of pieces are those of their raw literals. -/
theorem agrees_paint (h : Cut start cs ps) (pos : Nat) :
    Agrees (rawSpansOf pos ps) pos (paint ps) := by
  have hraw := raw_of_cut h
  have hpos : ∀ u : List Char, u ≠ [] → 0 < byteSize u := by
    intro u hu
    cases u with
    | nil => exact absurd rfl hu
    | cons c u => exact Nat.pos_of_ne_zero (by simpa using byteSize_cons_ne_zero 0 c u)
  refine ⟨?_, ?_, ?_, ?_, ?_⟩
  · intro a b k hm
    obtain ⟨ps₁, p, ps₂, u, v, rfl, htext, hb, ha, -⟩ := paint_cases hm
    have hsize : byteSize p.text = byteSize u + 1 + byteSize v := by
      rw [htext, byteSize_append, byteSize_cons, ← Nat.add_assoc]
      rfl
    have ha' : byteSize (chars a) = byteSize (textOf ps₁) + byteSize u := by
      rw [ha, byteSize_append]
    rw [isInside_append _ _ (by omega), isInside_append _ _ (by omega),
      isInside_cons (by omega), isInside_cons (by omega), ← hb]
    cases b with
    | false => exact ⟨rfl, rfl⟩
    | true =>
      obtain ⟨w, hw⟩ := hraw p (by simp) hb.symm
      obtain ⟨hu, hv⟩ := raw_between (htext.symm.trans hw) (by decide)
      have hu' := hpos u hu
      have hv' := hpos v hv
      simp only [Bool.true_and, Bool.and_eq_true, decide_eq_true_eq]
      omega
  · intro a x k hm
    obtain ⟨ps₁, p, ps₂, u, v, rfl, htext, hb, -, hk⟩ := paint_cases hm
    obtain ⟨w, hw⟩ := hraw p (by simp) hb.symm
    obtain ⟨-, hv⟩ := raw_between (htext.symm.trans hw) (by decide)
    cases v with
    | nil => exact absurd rfl hv
    | cons d v => rw [(List.cons.inj hk).1]
  · intro a x k hm hx htrimmed
    obtain ⟨ps₁, p, ps₂, u, v, rfl, htext, hb, -, rfl⟩ := paint_cases hm
    obtain ⟨w, hw⟩ := hraw p (by simp) (hb.symm.trans hx)
    have hquote : x.1 ≠ '\x60' := by
      intro hc
      rw [hc] at htrimmed
      cases htrimmed
    obtain ⟨-, hv⟩ := raw_between (htext.symm.trans hw) hquote
    cases v with
    | nil => exact absurd rfl hv
    | cons d v => exact hx
  · intro hinside
    rw [isInside_of_le (Nat.le_refl pos)] at hinside
    cases hinside
  · rw [chars_paint, ← append_nil ps, isInside_append _ _ (by rw [append_nil])]
    rfl

/-- What the layout pass makes of a text that is cut into pieces. -/
theorem format_of_cut {text : String} (h : Cut true (unixLines text.toList) ps) :
    format text = (SourceFile.parse (String.ofList (unixLines text.toList))).map
      fun _ => String.ofList (chars (tidy .top [] (paint ps))) := by
  have htokens : tokenize (unixLines text.toList) = .ok (tokensOf 0 [] false ps) :=
    tokenize_eq_ok_iff.2 ⟨ps, h, rfl⟩
  have hjoin : join false false (settle (rawSpansOf 0 ps) 0 (linesWithEnds (chars (paint ps))))
      = chars (tidy .top [] (paint ps)) :=
    join_settle (agrees_paint h 0) id
  rw [chars_paint, h.text_eq] at hjoin
  rw [format]
  simp only [htokens, rawSpans_tokensOf, hjoin]
  cases SourceFile.parse (String.ofList (unixLines text.toList)) <;> rfl

theorem format_eq_ok_iff {text out : String} :
    format text = .ok out ↔ (∃ file, SourceFile.parse (String.ofList (unixLines text.toList)) = .ok file) ∧
      ∃ ps, Cut true (unixLines text.toList) ps ∧
        out = String.ofList (chars (tidy .top [] (paint ps))) := by
  constructor
  · intro h
    cases htokens : tokenize (unixLines text.toList) with
    | error e =>
      rw [format] at h
      obtain ⟨file, -, hrest⟩ := ok_of_bind h
      rw [htokens] at hrest
      cases hrest
    | ok ts =>
      obtain ⟨ps, hcut, -⟩ := tokenize_eq_ok_iff.1 htokens
      rw [format_of_cut hcut] at h
      obtain ⟨file, hfile, rfl⟩ := ok_of_map h
      exact ⟨⟨file, hfile⟩, ps, hcut, rfl⟩
  · rintro ⟨⟨file, hfile⟩, ps, hcut, rfl⟩
    rw [format_of_cut hcut, hfile]
    rfl

end Stubwright.Layout
