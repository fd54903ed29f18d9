import Mathlib
import Stubwright.Text.Lines

/-!
# Lines of texts one below the other

A text whose last line is ended has its own lines in front of those of any text below it.

* `Text.lines_append`: the lines of the two texts.
* `Text.lines_line`, `Text.lines_last`: a single line, with and without a line feed at the end.
-/

namespace Stubwright.Text

open List

variable {l : List Char}

/-! ## Lines with their ends -/

theorem linesWithEnds_line (hl : '\n' ∉ l) (k : List Char) :
    linesWithEnds (l ++ '\n' :: k) = (l ++ ['\n']) :: linesWithEnds k := by
  induction l with
  | nil => rw [nil_append, linesWithEnds, if_pos rfl]; rfl
  | cons c l ih =>
    obtain ⟨hc, hrest⟩ : '\n' ≠ c ∧ '\n' ∉ l := by
      simpa only [mem_cons, not_or] using hl
    rw [cons_append, linesWithEnds, if_neg hc.symm, ih hrest]
    rfl

theorem linesWithEnds_last {c : Char} (hl : '\n' ∉ c :: l) :
    linesWithEnds (c :: l) = [c :: l] := by
  induction l generalizing c with
  | nil =>
    have hc : c ≠ '\n' := by simpa [eq_comm] using hl
    rw [linesWithEnds, if_neg hc]
    rfl
  | cons d l ih =>
    obtain ⟨hc, hrest⟩ : '\n' ≠ c ∧ '\n' ∉ d :: l := by
      simpa only [mem_cons, not_or] using hl
    rw [linesWithEnds, if_neg hc.symm, ih hrest]

/-- A text has no line feed, or its first line ends at one. -/
theorem eq_line_or (cs : List Char) :
    '\n' ∉ cs ∨ ∃ l k, '\n' ∉ l ∧ cs = l ++ '\n' :: k := by
  by_cases h : '\n' ∈ cs
  · obtain ⟨l, k, rfl, hl⟩ := eq_append_cons_of_mem h
    exact .inr ⟨l, k, hl, rfl⟩
  · exact .inl h

/-- The text is empty, or it ends with a line feed. -/
def IsEnded (cs : List Char) : Prop :=
  cs = [] ∨ cs.getLast? = some '\n'

theorem isEnded_newline (cs : List Char) : IsEnded (cs ++ ['\n']) :=
  .inr getLast?_concat

theorem IsEnded.tail {k : List Char} (h : IsEnded (l ++ '\n' :: k)) : IsEnded k := by
  cases k with
  | nil => exact .inl rfl
  | cons c k =>
    refine .inr ?_
    have hlast := h.resolve_left (by simp)
    rwa [getLast?_append_of_ne_nil _ (by simp), getLast?_cons_cons] at hlast

theorem linesWithEnds_append {a : List Char} (h : IsEnded a) (b : List Char) :
    linesWithEnds (a ++ b) = linesWithEnds a ++ linesWithEnds b := by
  induction hlen : a.length using Nat.strong_induction_on generalizing a with
  | _ n ih =>
  rcases eq_line_or a with ha | ⟨l, k, hl, rfl⟩
  · rcases h with rfl | h
    · rfl
    · exact absurd (mem_of_getLast? h) ha
  · have hk : k.length < n := by
      rw [← hlen, length_append, length_cons]
      omega
    rw [append_assoc, cons_append, linesWithEnds_line hl, linesWithEnds_line hl,
      ih k.length hk h.tail rfl, cons_append]

/-! ## Lines -/

theorem chomp_return (l : List Char) : chomp (l ++ ['\r', '\n']) = l := by
  simp [chomp]

theorem chomp_feed (hl : l.getLast? ≠ some '\r') : chomp (l ++ ['\n']) = l := by
  rcases eq_nil_or_concat l with rfl | ⟨u, c, rfl⟩
  · rfl
  · have hc : c ≠ '\r' := by simpa using hl
    simp [chomp, hc]

theorem isPrefix_chomp (l : List Char) : chomp (l ++ ['\n']) <+: l := by
  by_cases hl : l.getLast? = some '\r'
  · obtain ⟨u, rfl⟩ := getLast?_eq_some_iff.1 hl
    rw [append_assoc, singleton_append, chomp_return]
    exact prefix_append u _
  · rw [chomp_feed hl]

/-- The end of a line stays behind a character that is no carriage return. -/
theorem chomp_append {c : Char} (hc : c ≠ '\r') (u v : List Char) :
    chomp (u ++ c :: (v ++ ['\n'])) = u ++ c :: chomp (v ++ ['\n']) := by
  have hcut : ∀ w, u ++ c :: (v ++ w) = u ++ c :: v ++ w := by simp
  by_cases hv : v.getLast? = some '\r'
  · obtain ⟨w, rfl⟩ := getLast?_eq_some_iff.1 hv
    have hreturn : u ++ c :: (w ++ ['\r'] ++ ['\n']) = u ++ c :: w ++ ['\r', '\n'] := by simp
    rw [hreturn, chomp_return, append_assoc, singleton_append, chomp_return]
  · have hlast : (u ++ c :: v).getLast? ≠ some '\r' := by
      cases v with
      | nil => simpa using hc
      | cons d v => simpa using hv
    rw [hcut, chomp_feed hlast, chomp_feed hv]

theorem lines_append {a : List Char} (h : IsEnded a) (b : List Char) :
    lines (a ++ b) = lines a ++ lines b := by
  rw [lines, linesWithEnds_append h, map_append, lines, lines]

theorem lines_line (hl : '\n' ∉ l) (k : List Char) :
    lines (l ++ '\n' :: k) = chomp (l ++ ['\n']) :: lines k := by
  rw [lines, linesWithEnds_line hl, map_cons, lines]

theorem lines_last (hne : l ≠ []) (hl : '\n' ∉ l) : lines l = [l] := by
  obtain ⟨c, u, rfl⟩ := exists_cons_of_ne_nil hne
  have hfeed : ∀ v, (c :: u).reverse ≠ '\n' :: v := by
    intro v hv
    exact hl (mem_reverse.1 (hv ▸ mem_cons_self))
  have hchomp : chomp (c :: u) = c :: u := by
    rw [chomp]
    split
    · exact absurd ‹_› (hfeed _)
    · exact absurd ‹_› (hfeed _)
    · rfl
  rw [lines, linesWithEnds_last hl, map_singleton, hchomp]

end Stubwright.Text
