import Stubwright.Proofs.Edit
import Stubwright.SourceFile.ImportEdits

/-!
# The edits that add imports can be carried out

Every edit that adds an import either inserts a text at the start or the end of a line or inside the
parentheses of a group, or it stands alone and replaces a range that the file was read with.

* `importEdits_apply`: the edits for a file that was read apply.
* `groupEdits_between`: where its lines lie between its parentheses, a group stays whole.
-/

namespace Stubwright

open List

/-! ## Places in a text -/

namespace Text

theorem isBoundary_zero (text : List Char) : isBoundary 0 text = true :=
  isBoundary_iff.2 ⟨[], text, rfl, rfl⟩

theorem le_byteSize_of_isBoundary {n : Nat} {text : List Char} (h : isBoundary n text = true) :
    n ≤ byteSize text := by
  obtain ⟨a, b, rfl, rfl⟩ := isBoundary_iff.1 h
  rw [byteSize_append]
  exact Nat.le_add_right _ _

theorem isBoundary_lineStartFrom {start offset : Nat} {a b : List Char}
    (hstart : isBoundary start (a ++ b) = true) :
    isBoundary (lineStartFrom start (byteSize a) offset b) (a ++ b) = true := by
  induction b generalizing start a with
  | nil => exact hstart
  | cons c b ih =>
    -- The scan goes on behind `c`, from a text that has `c` at its end.
    have happend : a ++ c :: b = (a ++ [c]) ++ b := by simp
    have hsize : byteSize a + c.utf8Size = byteSize (a ++ [c]) := by simp
    rw [lineStartFrom]
    split_ifs with hle hc
    · exact hstart
    · have hone : byteSize a + 1 = byteSize (a ++ [c]) := by rw [← hsize, hc]; rfl
      rw [happend, hone]
      exact ih (isBoundary_iff.2 ⟨a ++ [c], b, rfl, rfl⟩)
    · rw [happend] at hstart
      rw [happend, hsize]
      exact ih hstart

/-- The start of a line is a place between two characters. -/
theorem isBoundary_lineStart (text : List Char) (offset : Nat) :
    isBoundary (lineStart text offset) text = true :=
  isBoundary_lineStartFrom (a := []) (isBoundary_zero text)

theorem isBoundary_lineEndFrom (offset : Nat) (a b : List Char) :
    isBoundary (lineEndFrom (byteSize a) offset b) (a ++ b) = true := by
  induction b generalizing a with
  | nil => exact isBoundary_iff.2 ⟨a, [], rfl, rfl⟩
  | cons c b ih =>
    rw [lineEndFrom]
    split
    · exact isBoundary_iff.2 ⟨a, c :: b, rfl, rfl⟩
    · have h := ih (a ++ [c])
      rwa [byteSize_append, byteSize_cons, byteSize_nil, Nat.add_zero, append_assoc] at h

/-- The end of a line is a place between two characters. -/
theorem isBoundary_lineEnd (text : List Char) (offset : Nat) :
    isBoundary (lineEnd text offset) text = true :=
  isBoundary_lineEndFrom offset [] text

end Text

theorem Span.isIn_between {text : List Char} {start stop : Nat}
    (hstart : Text.isBoundary start text = true) (hstop : Text.isBoundary stop text = true) :
    (Span.between start stop).IsIn text := by
  have hmax : Text.isBoundary (max start stop) text = true := by
    rcases Nat.le_total start stop with h | h
    · rwa [Nat.max_eq_right h]
    · rwa [Nat.max_eq_left h]
  exact ⟨Nat.le_max_left _ _, Text.le_byteSize_of_isBoundary hmax, hstart, hmax⟩

namespace Edit

theorem isIn_insert {text : List Char} {offset : Nat} (h : Text.isBoundary offset text = true)
    (s : String) : (insert offset s).span.IsIn text :=
  ⟨Nat.le_refl _, Text.le_byteSize_of_isBoundary h, h, h⟩

theorem apart_of_inserts {edits : List Edit} (h : ∀ e ∈ edits, ∃ offset s, e = insert offset s) :
    Apart edits := by
  refine pairwise_of_forall_mem_list fun a ha b hb => ?_
  obtain ⟨m, s, rfl⟩ := h a ha
  obtain ⟨n, s', rfl⟩ := h b hb
  change (decide (m < n) && decide (n < m)) = false
  simp only [Bool.and_eq_false_iff, decide_eq_false_iff_not]
  omega

end Edit

/-! ## The ranges of imports -/

/-- The ranges of an import declaration lie in a text. -/
structure ImportDecl.Bounded (d : ImportDecl) (text : List Char) : Prop where
  span : d.span.IsIn text
  lparen : ∀ l ∈ d.lparen, Text.isBoundary l.stop text = true
  rparen : ∀ r ∈ d.rparen, Text.isBoundary r.start text = true

theorem Tiled.isBoundary {text : List Char} {ts : List Token} (h : Tiled 0 text ts) {t : Token}
    (ht : t ∈ ts) : Text.isBoundary t.start text = true ∧ Text.isBoundary t.stop text = true := by
  obtain ⟨a, b, htext, hstart⟩ := h.stands ht
  rw [Nat.zero_add] at hstart
  refine ⟨Text.isBoundary_iff.2 ⟨a, t.text.toList ++ b, by rw [htext, append_assoc], hstart⟩, ?_⟩
  refine Text.isBoundary_iff.2 ⟨a ++ t.text.toList, b, htext, ?_⟩
  rw [Text.byteSize_append, hstart, Text.byteSize_toList, Token.stop]

/-- The ranges of the imports of a file that was read lie in its text. -/
theorem SourceFile.imports_bounded {text : String} {f : SourceFile}
    (h : SourceFile.parse text = .ok f) : ∀ d ∈ f.imports, d.Bounded text.toList := by
  intro d hd
  obtain ⟨tokens, s', htokens, hfile⟩ := Parser.run_ok h
  obtain ⟨-, himports, -⟩ := Parser.reads_file ⟨0, [], false, text.toList, htokens⟩ hfile
  obtain ⟨pre, mid, post, rfl, hread⟩ := himports d hd
  have htiled := tiled_of_tokenize htokens
  have hspan : d.span.IsIn text.toList := hread.span ▸ (htiled.slice hread.headed.ne_nil).1
  rcases hread.specs with ⟨kw, spec, us, literal, -, -, hl, hr, -⟩ |
    ⟨kw, l, inner, r, rfl, hl, hr, -⟩
  · exact ⟨hspan, by simp [hl], by simp [hr]⟩
  · refine ⟨hspan, ?_, ?_⟩
    · intro l' hl'
      cases hl.symm.trans hl'
      exact (htiled.isBoundary (t := l) (by simp)).2
    · intro r' hr'
      cases hr.symm.trans hr'
      exact (htiled.isBoundary (t := r) (by simp)).1

/-! ## The edits -/

namespace SourceFile

variable {text : List Char} {added : List ImportInfo} {file : SourceFile}

/-- Edits of spans in the text, no two of which overlap. -/
abbrev Applicable (text : List Char) (edits : List Edit) : Prop :=
  (∀ e ∈ edits, e.span.IsIn text) ∧ Edit.Apart edits

theorem applicable_singleton {e : Edit} (h : e.span.IsIn text) : Applicable text [e] :=
  ⟨forall_mem_singleton.2 h, pairwise_singleton _ _⟩

/-- An import goes into a group before a line, behind one, or behind the opening parenthesis. -/
theorem exists_groupEdit {lparen : Span} (hl : Text.isBoundary lparen.stop text = true)
    (runs : List (List ImportSpec)) (info : ImportInfo) :
    ∃ place s, groupEdit text lparen runs info = .insert place s ∧
      Text.isBoundary place text = true := by
  rw [groupEdit]
  dsimp only
  split
  · exact ⟨_, _, rfl, Text.isBoundary_lineStart text _⟩
  · refine ⟨_, _, rfl, ?_⟩
    split
    · exact Text.isBoundary_lineEnd text _
    · exact hl

theorem applicable_groupEdits {lparen rparen : Span} (hl : Text.isBoundary lparen.stop text = true)
    (hr : Text.isBoundary rparen.start text = true) (specs : List ImportSpec) :
    Applicable text (groupEdits text lparen rparen specs added) := by
  rw [groupEdits]
  split
  · dsimp only
    split
    · exact applicable_singleton (Span.isIn_between hl hr)
    · exact applicable_singleton (Edit.isIn_insert hl _)
  · have hinsert : ∀ e ∈ added.map (groupEdit text lparen (importRuns text specs)),
        ∃ place s, e = .insert place s ∧ Text.isBoundary place text = true := by
      intro e he
      obtain ⟨info, -, rfl⟩ := mem_map.1 he
      exact exists_groupEdit hl _ info
    refine ⟨fun e he => ?_, Edit.apart_of_inserts fun e he => ?_⟩
    · obtain ⟨place, s, rfl, hplace⟩ := hinsert e he
      exact Edit.isIn_insert hplace s
    · obtain ⟨place, s, rfl, -⟩ := hinsert e he
      exact ⟨place, s, rfl⟩

theorem isIn_loneEdit {decl : ImportDecl} (h : decl.Bounded text) :
    (loneEdit text decl added).span.IsIn text := by
  rw [loneEdit]
  dsimp only
  split
  · exact Span.isIn_between h.span.start (Text.isBoundary_lineEnd text _)
  · exact h.span

theorem applicable_importEdits (h : ∀ d ∈ file.imports, d.Bounded text)
    (added : List ImportInfo) : Applicable text (file.importEdits text added) := by
  have hnil : Applicable text [] := ⟨by simp, .nil⟩
  rw [importEdits]
  split
  · exact hnil
  dsimp only
  split
  · rename_i decl hfind
    have hdecl := h decl (mem_filter.1 (mem_of_find?_eq_some hfind)).1
    split
    · rename_i lparen rparen hl hr
      exact applicable_groupEdits (hdecl.lparen lparen hl) (hdecl.rparen rparen hr) _
    · exact hnil
  · split
    · rename_i decl rest hown
      have hmem : decl ∈ file.imports.filter fun decl => !decl.isForeign := by simp [hown]
      exact applicable_singleton (isIn_loneEdit (h decl (mem_filter.1 hmem).1))
    · exact applicable_singleton (Edit.isIn_insert (Text.isBoundary_lineEnd text _) _)

/-- The edits that add imports to a file that was read can be carried out. -/
theorem importEdits_apply {source : String}
    (h : SourceFile.parse source = .ok file) (added : List ImportInfo) :
    ∃ out, Edit.applyAll source.toList (file.importEdits source.toList added) = .ok out := by
  obtain ⟨hin, hapart⟩ := applicable_importEdits (imports_bounded h) added
  exact Edit.exists_applyAll hin hapart

/-! ## Groups with room -/

theorem flatten_importRuns (specs : List ImportSpec) : (importRuns text specs).flatten = specs := by
  fun_induction importRuns text specs with
  | case1 => rfl
  | case2 => rfl
  | case3 spec next rest runs between hblank ih => exact congrArg (spec :: ·) ih
  | case4 spec next rest runs between hblank run tail hruns ih =>
    exact congrArg (spec :: ·) ((congrArg flatten hruns).symm.trans ih)
  | case5 spec next rest runs between hblank hruns ih => cases (congrArg flatten hruns).symm.trans ih

theorem bestRun_subset (path : String) (runs : List (List ImportSpec)) :
    bestRun path runs ⊆ runs.flatten := by
  cases runs with
  | nil => exact nil_subset _
  | cons run runs =>
    rw [bestRun]
    refine foldlRecOn (motive := (· ⊆ (run :: runs).flatten)) runs _ (subset_append_left _ _)
      fun best hbest other hother => ?_
    split
    · exact fun spec hspec => mem_flatten.2 ⟨other, mem_cons_of_mem _ hother, hspec⟩
    · exact hbest

/-- The lines with the imports of a group lie between its parentheses. -/
structure HasRoom (text : List Char) (l r : Span) (specs : List ImportSpec) : Prop where
  le : l.stop ≤ r.start
  start : ∀ s ∈ specs, Text.lineStart text s.span.start ∈ Set.Icc l.stop r.start
  stop : ∀ s ∈ specs, Text.lineEnd text s.span.stop ∈ Set.Icc l.stop r.start

/-- In a group with room imports are added between the parentheses. -/
theorem groupEdits_between {l r : Span} {specs : List ImportSpec} (h : HasRoom text l r specs) :
    ∀ e ∈ groupEdits text l r specs added, l.stop ≤ e.span.start ∧ e.span.stop ≤ r.start := by
  intro e he
  rw [groupEdits] at he
  split at he
  · dsimp only at he
    split at he <;> cases mem_singleton.1 he
    · exact ⟨Nat.le_refl _, Nat.max_le.2 ⟨h.le, Nat.le_refl _⟩⟩
    · exact ⟨Nat.le_refl _, h.le⟩
  · obtain ⟨info, -, rfl⟩ := mem_map.1 he
    have hsub := bestRun_subset info.path (importRuns text specs)
    rw [flatten_importRuns] at hsub
    rw [groupEdit]
    dsimp only
    split
    · rename_i spec hfind
      exact h.start spec (hsub (mem_of_find?_eq_some hfind))
    · split
      · rename_i spec hlast
        exact h.stop spec (hsub (mem_of_getLast? hlast))
      · exact ⟨Nat.le_refl _, h.le⟩

/-- A group on one line is torn apart: the import goes behind its closing parenthesis. -/
theorem importEdits_torn :
    ∃ file out, SourceFile.parse "package p\n\nimport (\x22fmt\x22)\n" = .ok file ∧
      Edit.applyAll "package p\n\nimport (\x22fmt\x22)\n".toList
        (file.importEdits "package p\n\nimport (\x22fmt\x22)\n".toList [⟨"", "os"⟩]) = .ok out ∧
      ∀ file', SourceFile.parse (String.ofList out) ≠ .ok file' := by
  refine ⟨⟨"p", ⟨0, 9⟩, [⟨⟨11, 25⟩, some ⟨18, 19⟩, some ⟨24, 25⟩, [⟨none, "fmt", ⟨19, 24⟩⟩]⟩], []⟩,
    "package p\n\nimport (\x22fmt\x22)\n\t\x22os\x22\n".toList, by decide +kernel,
    by decide +kernel, ?_⟩
  intro file' h
  have hnone : (SourceFile.parse (String.ofList
      "package p\n\nimport (\x22fmt\x22)\n\t\x22os\x22\n".toList)).toOption = none := by
    decide +kernel
  rw [h] at hnone
  cases hnone

end SourceFile

end Stubwright
