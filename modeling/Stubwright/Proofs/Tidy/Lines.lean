import Stubwright.Proofs.Tidy.Tokens

/-!
# The lines of a settled text

What a settled text looks like: it starts with a line that is not empty and ends in one line feed,
no line ends in blanks and no two empty lines follow each other, raw literals apart.  `Behind` keeps
what of the text written so far decides whether a line feed may come next, and a text is `Neat` if
each of its line feeds may.

* `settled_tidy`: the lines of a settled form are settled.
-/

namespace Stubwright.Layout

open List

open Lexeme

/-- What stands right behind the next character. -/
inductive Behind where
  /-- This many line feeds, and none of them in a raw literal. -/
  | feeds (n : Nat)
  /-- A blank outside of raw literals. -/
  | blank
  /-- Anything else. -/
  | ink
deriving DecidableEq, Repr

namespace Behind

/-- Whether a line feed may come next. -/
def mayFeed : Behind → Bool
  | feeds n => n < 2
  | blank => false
  | ink => true

/-- The number of line feeds right behind. -/
def count : Behind → Nat
  | feeds n => n
  | _ => 0

/-- What stands behind the character after `x`. -/
def after (b : Behind) (x : Marked) : Behind :=
  if stays x then ink else if x.1 = '\n' then feeds (b.count + 1) else blank

theorem after_stays {x : Marked} (hx : stays x = true) (b : Behind) : b.after x = ink := by
  rw [after, if_pos hx]

theorem after_blank {c : Char} (hc : isTrimmed c = true) (b : Behind) :
    b.after (c, false) = blank := by
  have hfeed : c ≠ '\n' := by
    rintro rfl
    cases hc
  rw [after, if_neg (by simp [stays, hc]), if_neg hfeed]

theorem after_newline (b : Behind) : b.after ('\n', false) = feeds (b.count + 1) :=
  rfl

end Behind

/-- Every line feed outside of raw literals is one that may come, and one of them ends the text. -/
def Neat : Behind → List Marked → Prop
  | b, [] => b = .feeds 1
  | b, x :: m => (x = ('\n', false) → b.mayFeed = true) ∧ Neat (b.after x) m

/-- What stands behind the place where a text goes on. -/
def Place.behind : Place → Behind
  | .top => .feeds 2
  | .fresh => .feeds 1
  | .gap => .feeds 1
  | .inside => .ink

variable {p : Place} {held : List Char} {m : List Marked} {spans : List Span}

theorem neat_blanks {text : List Char} (htext : text.all isTrimmed = true) {x : Marked}
    (hx : stays x = true) (hm : Neat .ink m) (b : Behind) : Neat b (plain text ++ x :: m) := by
  induction text generalizing b with
  | nil =>
    refine ⟨?_, by rwa [Behind.after_stays hx]⟩
    rintro rfl
    cases hx
  | cons c text ih =>
    obtain ⟨hc, htext⟩ := (Bool.and_eq_true _ _).mp htext
    refine ⟨?_, ih htext _⟩
    intro heq
    rw [(Prod.mk.inj heq).1] at hc
    cases hc

/-- A settled text is neat, or nothing is written of it. -/
theorem neat_tidy (hheld : held.all isTrimmed = true) (m : List Marked) :
    Neat p.behind (tidy p held m) ∨ p = .top ∧ tidy p held m = [] := by
  induction m generalizing p held with
  | nil =>
    cases p with
    | top => exact .inr ⟨rfl, rfl⟩
    | inside => exact .inl ⟨fun _ => rfl, rfl⟩
    | _ => exact .inl rfl
  | cons x m ih =>
    have hnone : ([] : List Char).all isTrimmed = true := rfl
    rcases stays_cases x with hx | rfl | ⟨c, hc, rfl⟩
    · have hinside : Neat .ink (tidy .inside [] m) := by
        rcases ih (p := .inside) hnone with h | ⟨h, -⟩
        · exact h
        · cases h
      rw [tidy_stays hx]
      refine .inl ?_
      cases p with
      | gap => exact ⟨fun _ => rfl, neat_blanks hheld hx hinside _⟩
      | _ => exact neat_blanks hheld hx hinside _
    · rw [tidy_newline]
      cases p with
      | inside =>
        rcases ih (p := .fresh) hnone with h | ⟨h, -⟩
        · exact .inl ⟨fun _ => rfl, h⟩
        · cases h
      | top => exact ih (p := .top) hnone
      | fresh | gap =>
        rcases ih (p := .gap) hnone with h | ⟨h, -⟩
        · exact .inl h
        · cases h
    · rw [tidy_blank hc]
      exact ih (by simp [hheld, hc])

theorem Neat.append {b : Behind} {a k : List Marked} (h : Neat b (a ++ k)) :
    Neat (a.foldl Behind.after b) k := by
  induction a generalizing b with
  | nil => exact h
  | cons x a ih => exact ih h.2

/-! ## Settled texts -/

/-- The lines of a text with raw literals at these ranges are settled. -/
structure Settled (spans : List Span) (out : List Char) : Prop where
  /-- The text does not start with an empty line. -/
  start : out.head? ≠ some '\n'
  /-- The text ends in one line feed. -/
  stop : ∃ body, out = body ++ ['\n'] ∧ body ≠ [] ∧ body.getLast? ≠ some '\n'
  /-- No line ends in blanks, unless it ends inside a raw literal. -/
  ends : ∀ a k, out = a ++ '\n' :: k → isInside spans (Text.byteSize a) = false →
    a.getLast? ≠ some ' ' ∧ a.getLast? ≠ some '\t'
  /-- Two empty lines follow each other only inside a raw literal. -/
  gaps : ∀ a k, out = a ++ '\n' :: '\n' :: '\n' :: k →
    ∀ i ≤ 2, isInside spans (Text.byteSize a + i) = true

/-- Line feeds that follow each other are in the same raw literal or in none. -/
theorem Agrees.feed_eq {pos : Nat} {a k : List Marked} {b b' : Bool}
    (h : Agrees spans pos (a ++ ('\n', b) :: ('\n', b') :: k)) : b' = b := by
  have hnext := (h.feed (a ++ [('\n', b)]) b' k (by simp)).1
  have hsize : Text.byteSize (chars (a ++ [('\n', b)])) = Text.byteSize (chars a) + 1 := by
    rw [chars_append, Text.byteSize_append]
    rfl
  rw [hsize, ← Nat.add_assoc, (h.feed a b _ rfl).2] at hnext
  exact hnext.symm

theorem exists_marked {m : List Marked} {a k : List Char} {c : Char} (h : chars m = a ++ c :: k) :
    ∃ a' b k', m = a' ++ (c, b) :: k' ∧ chars a' = a ∧ chars k' = k := by
  obtain ⟨a', w, rfl, ha, hw⟩ := map_eq_append_iff.1 h
  obtain ⟨⟨d, b⟩, k', rfl, rfl, hk⟩ := map_eq_cons_iff.1 hw
  exact ⟨a', b, k', rfl, ha, hk⟩

theorem settled_of_neat {m : List Marked} (h : Agrees spans 0 m)
    (hneat : Neat (.feeds 2) m) (hstart : isInside spans 0 = false) : Settled spans (chars m) := by
  refine ⟨?_, ?_, ?_, ?_⟩
  · intro hhead
    obtain ⟨k, hk⟩ := head?_eq_some_iff.1 hhead
    obtain ⟨a', b, k', rfl, ha, -⟩ := exists_marked (a := []) hk
    obtain rfl := map_eq_nil_iff.1 ha
    obtain rfl : b = false := by rw [← (h.feed [] b k' rfl).1]; exact hstart
    exact absurd (hneat.1 rfl) (by decide)
  · rcases eq_nil_or_concat m with rfl | ⟨a, x, rfl⟩
    · cases hneat
    · rw [concat_eq_append] at hneat h ⊢
      have hlast : (a.foldl Behind.after (.feeds 2)).after x = .feeds 1 := hneat.append.2
      rcases stays_cases x with hx | rfl | ⟨c, hc, rfl⟩
      · rw [Behind.after_stays hx] at hlast
        cases hlast
      · have hcount : (a.foldl Behind.after (.feeds 2)).count = 0 := by
          rw [Behind.after_newline, Behind.feeds.injEq] at hlast
          omega
        refine ⟨chars a, chars_append .., ?_, ?_⟩
        · intro hnil
          obtain rfl := map_eq_nil_iff.1 hnil
          cases hcount
        · intro hfeed
          obtain ⟨w, hw⟩ := getLast?_eq_some_iff.1 hfeed
          obtain ⟨a', b, k', rfl, -, hk'⟩ := exists_marked hw
          obtain rfl := map_eq_nil_iff.1 hk'
          obtain rfl : false = b := Agrees.feed_eq (k := []) (by simpa using h)
          rw [foldl_append] at hcount
          cases hcount
      · rw [Behind.after_blank hc] at hlast
        cases hlast
  · intro a k hk houtside
    obtain ⟨a', b, k', rfl, rfl, -⟩ := exists_marked hk
    obtain rfl : b = false := by rw [← (h.feed a' b k' rfl).1, Nat.zero_add]; exact houtside
    have hfeed := hneat.append.1 rfl
    have hno : ∀ c, isTrimmed c = true → (chars a').getLast? ≠ some c := by
      intro c hc hlast
      obtain ⟨w, hw⟩ := getLast?_eq_some_iff.1 hlast
      obtain ⟨a, b, k, rfl, -, hk⟩ := exists_marked hw
      obtain rfl := map_eq_nil_iff.1 hk
      cases b with
      | true =>
        have hflag := h.edge a (c, true) (('\n', false) :: k') (by simp) rfl hc
        cases hflag
      | false =>
        rw [foldl_append, foldl_cons, foldl_nil, Behind.after_blank hc] at hfeed
        cases hfeed
    exact ⟨hno ' ' rfl, hno '\t' rfl⟩
  · intro a k hk
    obtain ⟨a', b, k₁, rfl, rfl, hk₁⟩ := exists_marked hk
    obtain ⟨a₁, b₁, k₂, rfl, ha₁, hk₂⟩ := exists_marked (a := []) hk₁
    obtain rfl := map_eq_nil_iff.1 ha₁
    obtain ⟨a₂, b₂, k₃, rfl, ha₂, -⟩ := exists_marked (a := []) hk₂
    obtain rfl := map_eq_nil_iff.1 ha₂
    obtain rfl := h.feed_eq
    have hsecond : Agrees spans 0 (a' ++ [('\n', b₁)] ++ ('\n', b₁) :: ('\n', b₂) :: k₃) := by
      simpa using h
    obtain rfl := hsecond.feed_eq
    cases b₂ with
    | false =>
      obtain ⟨-, -, hfeed, -⟩ := hneat.append
      have hlast := hfeed rfl
      rw [Behind.after_newline, Behind.after_newline] at hlast
      simp [Behind.mayFeed, Behind.count] at hlast
    | true =>
      have hfirst := h.feed a' true _ rfl
      have hlast := (hsecond.feed (a' ++ [('\n', true)]) true _ rfl).2
      rw [chars_append, Text.byteSize_append] at hlast
      intro i hi
      rw [Nat.zero_add] at hfirst hlast
      interval_cases i
      · exact hfirst.1
      · exact hfirst.2
      · exact hlast

/-- The lines of the settled form of a text are settled, if anything is written of it. -/
theorem settled_tidy {cs : List Char} {ps : List Piece} (hcut : Cut true cs ps)
    (hpaint : paint ps = tidy .top [] m) (hsome : cs ≠ []) : Settled (rawSpansOf 0 ps) cs := by
  have hcs : chars (tidy .top [] m) = cs := by rw [← hpaint, chars_paint, hcut.text_eq]
  have hagrees := agrees_paint hcut 0
  rw [hpaint] at hagrees
  have hnone : ([] : List Char).all isTrimmed = true := rfl
  rcases neat_tidy (p := .top) hnone m with hneat | ⟨-, hnil⟩
  · rw [← hcs]
    exact settled_of_neat hagrees hneat (isInside_of_le (Nat.le_refl 0))
  · rw [hnil] at hcs
    exact absurd hcs.symm hsome

end Stubwright.Layout
