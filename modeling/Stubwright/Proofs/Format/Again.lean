import Stubwright.Proofs.Format

/-!
# Laying out a text a second time

A text that the layout pass has written is settled, so the pass leaves it as it is, up to one thing.
Line ends are made short before blanks are dropped, so a carriage return that stood before another
one, before blanks at the end of a line or at the end of the text comes to stand before a line feed.
Only a second pass takes it away.

* `Layout.tidy_eq_self`: a neat text is settled as it is.
-/

namespace Stubwright.Layout

open List

open Lexeme

variable {p : Place} {held : List Char} {m : List Marked} {cs : List Char}

/-! ## Neat texts -/

/-- What stands behind the next character of a neat text, when `tidy` is at a place with some blanks
held back. -/
inductive Place.Sees : Place → List Char → Behind → Prop
  | top : Sees .top [] (.feeds 2)
  | fresh : Sees .fresh [] (.feeds 1)
  | gap : Sees .gap [] (.feeds 2)
  | inside : Sees .inside [] .ink
  | held {p : Place} {held : List Char} : Sees p held .blank

/-- A neat text is written as it stands: what is held back comes out before the next character that
stays, since no line feed may come before it. -/
theorem tidy_of_sees {b : Behind} (h : p.Sees held b) (hm : Neat b m) :
    tidy p held m = plain (p.opening ++ held) ++ m := by
  induction m generalizing p held b with
  | nil =>
    cases hm
    cases h
    rfl
  | cons x m ih =>
    obtain ⟨hfeed, hm⟩ := hm
    rcases stays_cases x with hx | rfl | ⟨c, hc, rfl⟩
    · rw [Behind.after_stays hx] at hm
      rw [tidy_stays hx, ih .inside hm]
      rfl
    · rw [Behind.after_newline] at hm
      rw [tidy_newline]
      cases h with
      | fresh => exact ih .gap hm
      | inside => exact congrArg _ (ih .fresh hm)
      | _ => cases hfeed rfl
    · rw [Behind.after_blank hc] at hm
      rw [tidy_blank hc, ih .held hm, ← append_assoc, plain, map_append, append_assoc]
      rfl

theorem tidy_eq_self (hm : Neat (.feeds 2) m) : tidy .top [] m = m :=
  tidy_of_sees .top hm

/-! ## Carriage returns -/

/-- A text has a carriage return right before a line feed. -/
def HasLongEnd (cs : List Char) : Prop :=
  ['\x0d', '\n'] <:+: cs

theorem count_blanks {text : List Char} (h : text.all isTrimmed = true) : text.count '\x0d' = 0 := by
  refine count_eq_zero.2 fun hmem => ?_
  cases all_eq_true.1 h _ hmem

theorem count_layout (p : Place) : p.opening.count '\x0d' = 0 ∧ p.lineEnd.count '\x0d' = 0 := by
  cases p <;> decide

/-- Settling a layout leaves out no carriage return and adds none. -/
theorem count_tidy (hheld : held.all isTrimmed = true) (m : List Marked) :
    (chars (tidy p held m)).count '\x0d' = (chars m).count '\x0d' := by
  induction m generalizing p held with
  | nil => rw [tidy, chars_map]; exact (count_layout p).2
  | cons x m ih =>
    have hnone : ([] : List Char).all isTrimmed = true := rfl
    rcases stays_cases x with hx | rfl | ⟨c, hc, rfl⟩
    · rw [tidy_stays hx, chars_append, chars_cons, chars_cons, plain, chars_map, count_append,
        count_cons, count_cons, ih hnone, count_append, (count_layout p).1,
        count_blanks hheld]
      omega
    · rw [tidy_newline, chars_append, plain, chars_map, count_append, (count_layout p).2,
        ih hnone, chars_cons, count_cons]
      simp
    · have hne : (c == '\x0d') = false := by
        cases hcr : c == '\x0d' with
        | false => rfl
        | true => rw [eq_of_beq hcr] at hc; cases hc
      rw [tidy_blank hc, ih (by simp [hheld, hc]), chars_cons, count_cons, hne]
      rfl

/-- Line ends that are short stay as they are. -/
theorem unixLines_eq_self_of_short (h : ¬HasLongEnd cs) : unixLines cs = cs := by
  induction cs using unixLines_induction with
  | hnil => rfl
  | hcrlf k _ => exact absurd (prefix_append ['\x0d', '\n'] k).isInfix h
  | hcons c k hc ih =>
    rw [unixLines_cons hc, ih fun hk => h (hk.trans (suffix_cons c k).isInfix)]

theorem count_unixLines_le (cs : List Char) : (unixLines cs).count '\x0d' ≤ cs.count '\x0d' := by
  induction cs using unixLines_induction with
  | hnil => exact Nat.le_refl _
  | hcrlf k ih =>
    rw [unixLines_crlf, count_cons, count_cons, count_cons]
    omega
  | hcons c k hc ih =>
    rw [unixLines_cons hc, count_cons, count_cons]
    omega

/-- A long line end loses its carriage return. -/
theorem count_unixLines_lt (h : HasLongEnd cs) :
    (unixLines cs).count '\x0d' < cs.count '\x0d' := by
  induction cs using unixLines_induction with
  | hnil => simp [HasLongEnd] at h
  | hcrlf k _ =>
    have hk := count_unixLines_le k
    rw [unixLines_crlf, count_cons, count_cons, count_cons]
    simp
    omega
  | hcons c k hc ih =>
    rw [unixLines_cons hc, count_cons, count_cons]
    rcases infix_cons_iff.1 h with hprefix | hk
    · obtain ⟨r, hr⟩ := hprefix
      obtain ⟨rfl, rfl⟩ := List.cons.inj hr
      exact absurd ⟨rfl, rfl⟩ hc
    · have := ih hk
      omega

/-! ## A second pass -/

/-- A second layout pass changes nothing just in case the first one left no carriage return before a
line feed; it did not if every carriage return of the text was part of a long line end. -/
theorem format_again_iff {text out : String} (h : format text = .ok out) :
    (format out = .ok out ↔ ¬HasLongEnd out.toList) ∧
      ('\x0d' ∉ unixLines text.toList → format out = .ok out) := by
  obtain ⟨⟨file, hparse⟩, ps₁, hcut₁, rfl⟩ := format_eq_ok_iff.1 h
  obtain ⟨ps', hcut', hpaint, -, hparse', hsome⟩ := exists_parse_tidy hcut₁ hparse
  have hnone : ([] : List Char).all isTrimmed = true := rfl
  have hneat : Neat (.feeds 2) (tidy .top [] (paint ps₁)) := by
    rcases neat_tidy (p := .top) hnone (paint ps₁) with hneat | ⟨-, hnil⟩
    · exact hneat
    · rw [hnil] at hsome
      exact absurd rfl hsome
  have hsettled : ¬HasLongEnd (chars (tidy .top [] (paint ps₁))) →
      format (String.ofList (chars (tidy .top [] (paint ps₁)))) =
        .ok (String.ofList (chars (tidy .top [] (paint ps₁)))) := by
    intro hshort
    refine format_eq_ok_iff.2 ?_
    rw [String.toList_ofList, unixLines_eq_self_of_short hshort]
    refine ⟨hparse', ps', hcut', ?_⟩
    rw [hpaint, tidy_eq_self hneat]
  rw [String.toList_ofList]
  refine ⟨⟨fun hsame hlong => ?_, hsettled⟩, fun htext => hsettled fun hlong => htext ?_⟩
  · -- the second pass leaves out a carriage return, and settling brings none back
    obtain ⟨-, ps₂, hcut₂, hout⟩ := format_eq_ok_iff.1 hsame
    rw [String.toList_ofList] at hcut₂
    have hcount := congrArg (List.count '\x0d') (String.ofList_injective hout)
    rw [count_tidy hnone (paint ps₂), chars_paint, hcut₂.text_eq] at hcount
    exact absurd hcount (Nat.ne_of_gt (count_unixLines_lt hlong))
  · have hmem : '\x0d' ∈ chars (tidy .top [] (paint ps₁)) := hlong.subset mem_cons_self
    rw [← count_pos_iff, count_tidy hnone, chars_paint, hcut₁.text_eq] at hmem
    exact count_pos_iff.1 hmem

/-- Line ends of both forms, one behind a blank. -/
theorem format_again_iff_mixedEnds :
    format "package a\x0d\n\x0d\n\nvar x int \x0d\n" = .ok "package a\n\nvar x int\n" ∧
      format "package a\n\nvar x int\n" = .ok "package a\n\nvar x int\n" := by
  have hout : format "package a\x0d\n\x0d\n\nvar x int \x0d\n" = .ok "package a\n\nvar x int\n" := by
    decide +kernel
  exact ⟨hout, (format_again_iff hout).2 (by decide +kernel)⟩

/-- Of two carriage returns before a line feed, each pass takes one away. -/
theorem format_ne_again :
    format "package a\x0d\x0d\n" = .ok "package a\x0d\n" ∧
      format "package a\x0d\n" = .ok "package a\n" := by
  decide +kernel

end Stubwright.Layout
