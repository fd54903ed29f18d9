import Stubwright.Build.Constraint
import Stubwright.Proofs.Lines

/-!
# Comments above a build constraint

The lines at the top of a file are looked at one by one, so a comment is passed over as a whole only
if each of its lines is.

* `allows_behind_comment`: which comments leave the verdict of the text below them alone.
-/

namespace Stubwright.Build

open List

open Text

/-- The start of a line with a constraint. -/
def mark : List Char :=
  "//go:build".toList

/-- A line at the top of a file that says nothing about its constraint. -/
def IsPassed (line : List Char) : Prop :=
  trim line = [] ∨ ['/', '/'] <+: trim line ∧ ¬mark <+: trim line ∨
    ['/', '*'] <+: trim line

theorem ofLine_eq_skipped_iff {line : List Char} :
    HeaderLine.ofLine line = .skipped ↔ IsPassed line := by
  have hslashes : "//".toList = ['/', '/'] := rfl
  have hstar : "/*".toList = ['/', '*'] := rfl
  have hmark : "//go:build".toList = mark := rfl
  simp only [IsPassed, HeaderLine.ofLine, hslashes, hstar, hmark, isPrefixOf_iff_prefix,
    Bool.or_eq_true, List.isEmpty_iff]
  generalize trim line = l
  by_cases hl : mark <+: l
  · rw [if_pos hl]
    have hstart : ∃ k, l = '/' :: '/' :: k := by
      obtain ⟨k, hk⟩ := hl
      exact ⟨"go:build".toList ++ k, hk.symm⟩
    obtain ⟨k, rfl⟩ := hstart
    simp [hl]
  · rw [if_neg hl]
    by_cases hl' : (l = [] ∨ ['/', '/'] <+: l) ∨ ['/', '*'] <+: l
    · rw [if_pos hl']
      simpa [hl, or_assoc] using hl'
    · rw [if_neg hl']
      simpa [hl, not_or, and_assoc] using hl'

/-! ## Lines -/

/-- Lines that are passed over change no verdict. -/
theorem linesAllow_passed {above : List (List Char)} (h : ∀ line ∈ above, IsPassed line)
    (below : List (List Char)) : linesAllow (above ++ below) = linesAllow below := by
  induction above with
  | nil => rfl
  | cons line above ih =>
    obtain ⟨hline, habove⟩ := forall_mem_cons.1 h
    rw [cons_append, linesAllow, ofLine_eq_skipped_iff.2 hline]
    exact ih habove

/-- The first line that is not passed over decides, whatever stands below it. -/
theorem linesAllow_decided {line : List Char} (h : ¬IsPassed line) (below : List (List Char)) :
    linesAllow (line :: below) = linesAllow [line] := by
  rw [linesAllow, linesAllow]
  rw [← ofLine_eq_skipped_iff] at h
  cases hline : HeaderLine.ofLine line with
  | constraint text => rfl
  | skipped => exact absurd hline h
  | other => rfl

theorem exists_deciding_line {lines : List (List Char)} (h : ¬∀ line ∈ lines, IsPassed line) :
    ∃ above line below, lines = above ++ line :: below ∧ (∀ l ∈ above, IsPassed l) ∧
      ¬IsPassed line := by
  induction lines with
  | nil => exact absurd (by simp) h
  | cons line lines ih =>
    by_cases hline : IsPassed line
    · obtain ⟨above, line', below, rfl, habove, hline'⟩ :=
        ih fun hlines => h (forall_mem_cons.2 ⟨hline, hlines⟩)
      exact ⟨line :: above, line', below, rfl, forall_mem_cons.2 ⟨hline, habove⟩, hline'⟩
    · exact ⟨[], line, lines, rfl, by simp, hline⟩

/-! ## Comments -/

/-- A comment from its first character to its last, other than a line with a constraint. -/
inductive IsComment : List Char → Prop
  | line {body : List Char} (hbody : '\n' ∉ body) (hmark : ¬mark <+: '/' :: '/' :: body) :
      IsComment ('/' :: '/' :: body)
  | block {body : List Char} (hbody : ¬['*', '/'] <:+: body) :
      IsComment ('/' :: '*' :: (body ++ ['*', '/']))

/-- Trimming keeps the start of a line that is not blank. -/
theorem trim_cons {c d : Char} (hc : isBlank c = false) (hd : isBlank d = false)
    (w : List Char) : ∃ w', trim (c :: d :: w) = c :: d :: w' ∧ w' <+: w := by
  refine ⟨dropEndWhile isBlank w, ?_, ?_⟩
  · rw [trim, dropWhile_cons_of_neg (by simp [hc]), dropEndWhile,
      dropEndWhile, reverse_cons, reverse_cons, append_assoc,
      dropWhile_append]
    split
    · rename_i hempty
      rw [List.isEmpty_iff.1 hempty]
      simp [hd]
    · simp
  · rw [dropEndWhile, ← reverse_suffix, reverse_reverse]
    exact dropWhile_suffix _

/-- The first line of a text that starts with a slash and another character. -/
theorem lines_slash {x : Char} (hfeed : x ≠ '\n') (hreturn : x ≠ '\r') (w : List Char) :
    ∃ w' rest, lines ('/' :: x :: w ++ ['\n']) = ('/' :: x :: w') :: rest ∧ w' <+: w ∧
      ('\n' ∉ w → rest = []) := by
  have hline : ∀ l k, '\n' ∉ l → ∃ l', lines ('/' :: x :: l ++ '\n' :: k)
      = ('/' :: x :: l') :: lines k ∧ l' <+: l := by
    intro l k hl
    refine ⟨chomp (l ++ ['\n']), ?_, isPrefix_chomp l⟩
    rw [lines_line (by simp [hl, hfeed.symm])]
    exact congrArg (· :: _) (chomp_append hreturn ['/'] l)
  rcases eq_line_or w with hw | ⟨l, k, hl, rfl⟩
  · obtain ⟨l', hlines, hl'⟩ := hline w [] hw
    exact ⟨l', [], hlines, hl', fun _ => rfl⟩
  · obtain ⟨l', hlines, hl'⟩ := hline l (k ++ ['\n']) hl
    refine ⟨l', lines (k ++ ['\n']), ?_, hl'.trans (prefix_append l _), ?_⟩
    · rw [← hlines]
      simp
    · simp

/-- The first line of a comment is passed over. -/
theorem IsComment.lines_eq {c : List Char} (h : IsComment c) :
    ∃ first rest, lines (c ++ ['\n']) = first :: rest ∧ IsPassed first ∧
      ('\n' ∉ c → rest = []) := by
  cases h with
  | @line body hbody hmark =>
    obtain ⟨w, rest, hlines, hw, hrest⟩ := lines_slash (x := '/') (by decide) (by decide) body
    obtain ⟨w', htrim, hw'⟩ := trim_cons (c := '/') (d := '/') rfl rfl w
    refine ⟨_, rest, hlines, .inr (.inl ?_), fun _ => hrest hbody⟩
    rw [htrim]
    refine ⟨⟨w', rfl⟩, fun hstart => hmark (hstart.trans ?_)⟩
    simpa using hw'.trans hw
  | @block body hbody =>
    obtain ⟨w, rest, hlines, -, hrest⟩ :=
      lines_slash (x := '*') (by decide) (by decide) (body ++ ['*', '/'])
    obtain ⟨w', htrim, -⟩ := trim_cons (c := '/') (d := '*') rfl rfl w
    refine ⟨_, rest, hlines, .inr (.inr ⟨w', htrim.symm⟩), fun hc => hrest ?_⟩
    exact fun hmem => hc (mem_cons_of_mem _ (mem_cons_of_mem _ hmem))

theorem allows_below (c t : List Char) :
    allows (c ++ '\n' :: t) = linesAllow (lines (c ++ ['\n']) ++ lines t) := by
  rw [allows, append_cons, lines_append (isEnded_newline c)]

/-- There are verdicts of both kinds, so no text with a verdict of its own can stand above every
other one. -/
theorem exists_allows_ne (v : Bool) : ∃ t, allows t ≠ v := by
  cases v with
  | true => exact ⟨"//go:build ignore".toList, by decide +kernel⟩
  | false => exact ⟨[], by decide⟩

/-- A comment on a line of its own above a text leaves the verdict of the text alone.  A comment of
several lines does so for every text exactly if its lines behind the first would be passed over by
themselves; otherwise the first line that would not gives the verdict, whatever the text. -/
theorem allows_behind_comment {c : List Char} (hc : IsComment c) :
    ('\n' ∉ c → ∀ t, allows (c ++ '\n' :: t) = allows t) ∧
    ((∀ t, allows (c ++ '\n' :: t) = allows t) ↔
      ∀ line ∈ (lines (c ++ ['\n'])).tail, IsPassed line) ∧
    ∀ above line below, lines (c ++ ['\n']) = above ++ line :: below →
      (∀ l ∈ above, IsPassed l) → ¬IsPassed line →
      ∀ t, allows (c ++ '\n' :: t) = linesAllow [line] := by
  obtain ⟨first, rest, hlines, hfirst, hrest⟩ := hc.lines_eq
  have hpassed : (∀ line ∈ rest, IsPassed line) → ∀ t, allows (c ++ '\n' :: t) = allows t := by
    intro h t
    rw [allows_below, hlines, linesAllow_passed (forall_mem_cons.2 ⟨hfirst, h⟩), allows]
  have hdecided : ∀ above line below, lines (c ++ ['\n']) = above ++ line :: below →
      (∀ l ∈ above, IsPassed l) → ¬IsPassed line →
      ∀ t, allows (c ++ '\n' :: t) = linesAllow [line] := by
    intro above line below h habove hline t
    rw [allows_below, h, append_assoc, linesAllow_passed habove, cons_append,
      linesAllow_decided hline]
  refine ⟨fun h => hpassed (by rw [hrest h]; simp), ⟨fun h => ?_, fun h => ?_⟩, hdecided⟩
  · rw [hlines, tail_cons]
    by_contra hnot
    obtain ⟨above, line, below, rfl, habove, hline⟩ := exists_deciding_line hnot
    obtain ⟨t, ht⟩ := exists_allows_ne (linesAllow [line])
    apply ht
    rw [← h t]
    exact hdecided (first :: above) line below hlines (forall_mem_cons.2 ⟨hfirst, habove⟩)
      hline t
  · rw [hlines, tail_cons] at h
    exact hpassed h

/-- A block comment of four lines that are all passed over. -/
theorem allows_behind_comment_slashes :
    IsComment "/* a\n// b\n\n/* c */".toList ∧
    ∀ t, allows ("/* a\n// b\n\n/* c */".toList ++ '\n' :: t) = allows t := by
  have hbody : ¬['*', '/'] <:+: " a\n// b\n\n/* c ".toList := by decide
  have hc : IsComment "/* a\n// b\n\n/* c */".toList := .block hbody
  have hlines : (lines ("/* a\n// b\n\n/* c */".toList ++ ['\n'])).tail
      = ["// b".toList, [], "/* c */".toList] := by decide
  refine ⟨hc, (allows_behind_comment hc).2.1.2 ?_⟩
  rw [hlines, forall_mem_cons, forall_mem_cons, forall_mem_singleton]
  exact ⟨ofLine_eq_skipped_iff.1 rfl, ofLine_eq_skipped_iff.1 rfl, ofLine_eq_skipped_iff.1 rfl⟩

/-- A header of three lines hides the constraint below it, and a constraint that a block comment
quotes is taken for that of the file. -/
theorem allows_ne_behind_comment :
    (IsComment "/*\nLicence\n*/".toList ∧
      allows ("/*\nLicence\n*/".toList ++ '\n' :: "//go:build ignore\n\npackage p\n".toList) = true ∧
      allows "//go:build ignore\n\npackage p\n".toList = false) ∧
    IsComment "/*\n//go:build ignore\n*/".toList ∧
      allows ("/*\n//go:build ignore\n*/".toList ++ '\n' :: "package p\n".toList) = false ∧
      allows "package p\n".toList = true := by
  have hlicence : ¬['*', '/'] <:+: "\nLicence\n".toList := by decide
  have hquoted : ¬['*', '/'] <:+: "\n//go:build ignore\n".toList := by decide
  refine ⟨⟨.block hlicence, ?_, ?_⟩, .block hquoted, ?_, ?_⟩
  all_goals decide +kernel

end Stubwright.Build
