import Stubwright.Proofs.Lockstep.File
import Stubwright.Proofs.Tidy.Lines
import Stubwright.Proofs.Tidy.Tokens
import Stubwright.Proofs.UnixLines

/-!
# What the layout pass changes

The layout pass changes the layout of a source file and nothing else: its output has the tokens of
the text, is a source file again, and its lines are settled.

* `exists_parse_tidy`: the settled form of a source file is one, with the same tokens.
* `format_keeps_tokens`: the same of the layout pass.
-/

namespace Stubwright.Layout

open List String

open Lexeme

/-- A token behind the layout pass: it has the same kind, and the same text but for the line ends in
a raw literal. -/
structure Kept (t t' : Token) : Prop where
  kind : t'.kind = t.kind
  text : t'.text = if t.kind = .rawStringLit then String.ofList (unixLines t.text.toList) else t.text

section

variable {rewrite : List Char → List Char} {lead : List Char} {ps ps' : List Piece}

/-- The tokens of two texts whose entries behind a line break correspond. -/
theorem relaid_tokensOf
    (h : List.Forall₂ (Entry.Relaid rewrite) (entries lead false ps) (entries lead false ps')) :
    tokensOf 0 [] false ps = [] ∧ tokensOf 0 [] false ps' = [] ∨
      ∃ t ts t' ts', tokensOf 0 [] false ps = t :: ts ∧ tokensOf 0 [] false ps' = t' :: ts' ∧
        t'.kind = t.kind ∧
        (t'.entry.text = if t.kind = .rawStringLit then rewrite t.entry.text else t.entry.text) ∧
        List.Forall₂ (fun t t' => Entry.Relaid rewrite t.entry t'.entry) ts ts' := by
  rcases relaid_cases h with ⟨hnil, hnil'⟩ | ⟨e, es, e', es', hcons, hcons', hkind, htext, hrest⟩
  · rw [← map_entry_tokensOf ps 0, map_eq_nil_iff] at hnil
    rw [← map_entry_tokensOf ps' 0, map_eq_nil_iff] at hnil'
    exact .inl ⟨hnil, hnil'⟩
  · rw [← map_entry_tokensOf ps 0] at hcons
    rw [← map_entry_tokensOf ps' 0] at hcons'
    obtain ⟨t, ts, hts, rfl, rfl⟩ := map_eq_cons_iff.1 hcons
    obtain ⟨t', ts', hts', rfl, rfl⟩ := map_eq_cons_iff.1 hcons'
    rw [forall₂_map_left_iff, forall₂_map_right_iff] at hrest
    exact .inr ⟨t, ts, t', ts', hts, hts', hkind, htext, hrest⟩

theorem forall₂_tokensOf {R : Token → Token → Prop} (hR : ∀ {t t' : Token}, t'.kind = t.kind →
      (t'.entry.text = if t.kind = .rawStringLit then rewrite t.entry.text else t.entry.text) → R t t')
    (h : List.Forall₂ (Entry.Relaid rewrite) (entries lead false ps) (entries lead false ps')) :
    List.Forall₂ R (tokensOf 0 [] false ps) (tokensOf 0 [] false ps') := by
  rcases relaid_tokensOf h with ⟨hnil, hnil'⟩ | ⟨t, ts, t', ts', hcons, hcons', hkind, htext, hrest⟩
  · rw [hnil, hnil']
    exact .nil
  · rw [hcons, hcons']
    exact .cons (hR hkind htext) (hrest.imp fun t t' ht => hR ht.kind ht.text)

end

theorem kept_of_text {t t' : Token} (hkind : t'.kind = t.kind)
    (htext : t'.entry.text = if t.kind = .rawStringLit then unixLines t.entry.text else t.entry.text) :
    Kept t t' where
  kind := hkind
  text := by
    have htext' := congrArg String.ofList htext
    rw [apply_ite String.ofList, Token.entry, Token.entry, ofList_toList, ofList_toList]
      at htext'
    exact htext'

theorem parse_ne_empty {file : SourceFile} : SourceFile.parse "" ≠ .ok file := by
  intro h
  obtain ⟨ts, s', hts, hfile⟩ := Parser.run_ok h
  obtain ⟨ps, hcut, rfl⟩ := tokenize_eq_ok_iff.1 hts
  rw [toList_empty] at hcut
  cases hcut
  cases hfile

/-- The settled form of a source file is one again, with the same tokens. -/
theorem exists_parse_tidy {cs : List Char} {ps : List Piece} {file : SourceFile} (hcut : Cut true cs ps)
    (hparse : SourceFile.parse (String.ofList cs) = .ok file) :
    ∃ ps', Cut true (chars (tidy .top [] (paint ps))) ps' ∧ paint ps' = tidy .top [] (paint ps) ∧
      List.Forall₂ (Entry.Relaid id) (entries ['\n'] false ps) (entries ['\n'] false ps') ∧
      (∃ file', SourceFile.parse (String.ofList (chars (tidy .top [] (paint ps)))) = .ok file') ∧
      chars (tidy .top [] (paint ps)) ≠ [] := by
  obtain ⟨ps', hcut', hpaint, htidy⟩ := exists_cut_tidy hcut
  have hts : tokenize (String.ofList cs).toList = .ok (tokensOf 0 [] false ps) := by
    rw [toList_ofList]
    exact tokenize_eq_ok_iff.2 ⟨ps, hcut, rfl⟩
  have hts' : tokenize (String.ofList (chars (tidy .top [] (paint ps)))).toList =
      .ok (tokensOf 0 [] false ps') := by
    rw [toList_ofList]
    exact tokenize_eq_ok_iff.2 ⟨ps', hcut', rfl⟩
  have hsame : List.Forall₂ (fun t t' => t'.kind = t.kind ∧ t'.text = t.text)
      (tokensOf 0 [] false ps) (tokensOf 0 [] false ps') := by
    refine forall₂_tokensOf (fun hkind htext => ⟨hkind, ?_⟩) htidy
    rw [id_eq, ite_self] at htext
    exact toList_injective htext
  obtain ⟨file', hparse'⟩ := SourceFile.exists_parse hts hts' hsame hparse
  refine ⟨ps', hcut', hpaint, htidy, ⟨file', hparse'⟩, fun hnil => ?_⟩
  rw [hnil] at hparse'
  exact parse_ne_empty hparse'

/-- The layout pass changes the layout only: its output is cut into the tokens of the text, but for the
line ends in raw literals, it is a source file, and its lines are settled. -/
theorem format_keeps_tokens {text out : String} (h : format text = .ok out) :
    ∃ ts ts', tokenize text.toList = .ok ts ∧ tokenize out.toList = .ok ts' ∧
      List.Forall₂ Kept ts ts' ∧ (∃ file, SourceFile.parse out = .ok file) ∧
      Settled (rawSpans ts') out.toList := by
  obtain ⟨⟨file, hparse⟩, ps₁, hcut₁, rfl⟩ := format_eq_ok_iff.1 h
  obtain ⟨ps, hcut, hlines⟩ := exists_cut_of_unixLines hcut₁ ['\n']
  obtain ⟨ps', hcut', hpaint, htidy, hparse', hsome⟩ := exists_parse_tidy hcut₁ hparse
  have hts : tokenize text.toList = .ok (tokensOf 0 [] false ps) := tokenize_eq_ok_iff.2 ⟨ps, hcut, rfl⟩
  have hts' : tokenize (String.ofList (chars (tidy .top [] (paint ps₁)))).toList =
      .ok (tokensOf 0 [] false ps') := by
    rw [toList_ofList]
    exact tokenize_eq_ok_iff.2 ⟨ps', hcut', rfl⟩
  refine ⟨_, _, hts, hts', ?_, hparse', ?_⟩
  · exact forall₂_tokensOf kept_of_text (forall₂_relaid_trans hlines htidy)
  · rw [rawSpans_tokensOf, toList_ofList]
    exact settled_tidy hcut' hpaint hsome

/-- Blank lines at the start, in a raw literal and in a comment, long line ends, and no line end at
the end. -/
def roughText : String :=
  "\n\npackage a  \r\n\n\n\nvar s = \x60x \r\n\r\n\r\n y\x60 \t\n/* c \n\n\n d */ var t int"

def smoothText : String :=
  "package a\n\nvar s = \x60x \n\n\n y\x60\n/* c\n\n d */ var t int\n"

theorem format_keeps_tokens_roughText :
    format roughText = .ok smoothText ∧
      ∃ ts ts', tokenize roughText.toList = .ok ts ∧ tokenize smoothText.toList = .ok ts' ∧
        List.Forall₂ Kept ts ts' ∧ (∃ file, SourceFile.parse smoothText = .ok file) ∧
        Settled (rawSpans ts') smoothText.toList := by
  have hout : format roughText = .ok smoothText := by decide +kernel
  exact ⟨hout, format_keeps_tokens hout⟩

end Stubwright.Layout
