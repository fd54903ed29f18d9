import Stubwright.Proofs.Accounting

/-!
# How the parts of a file lie in its text

The ranges in a file that was read come from tokens that follow each other.

* `SourceFile.accounts_of_parse`: reading a file accounts for every token of its text.
-/

namespace Stubwright

open List

variable {text : List Char}

namespace Span

/-- Whether a token stands in a range. -/
def holds (s : Span) (t : Token) : Bool :=
  s.start ≤ t.start && t.start < s.stop && t.stop ≤ s.stop

theorem holds_iff {s : Span} {t : Token} :
    s.holds t = true ↔ s.start ≤ t.start ∧ t.start < s.stop ∧ t.stop ≤ s.stop := by
  simp [holds, and_assoc]

/-- A range lies in another one. -/
def Within (s outer : Span) : Prop :=
  outer.start ≤ s.start ∧ s.stop ≤ outer.stop

/-- A range lies in a text and splits no character. -/
structure IsIn (s : Span) (text : List Char) : Prop where
  le : s.start ≤ s.stop
  le_size : s.stop ≤ Text.byteSize text
  start : Text.isBoundary s.start text = true
  stop : Text.isBoundary s.stop text = true

end Span

theorem Text.isBoundary_iff {n : Nat} :
    Text.isBoundary n text = true ↔ ∃ a b, text = a ++ b ∧ Text.byteSize a = n := by
  rw [Text.isBoundary, Option.isSome_iff_exists]
  constructor
  · rintro ⟨⟨a, b⟩, h⟩
    exact ⟨a, b, Text.splitAt?_eq_some_iff.1 h⟩
  · rintro ⟨a, b, h⟩
    exact ⟨(a, b), Text.splitAt?_eq_some_iff.2 h⟩

/-- The range of a part of a text. -/
theorem Span.isIn_of_eq {a m b : List Char} (h : text = a ++ m ++ b) :
    (⟨Text.byteSize a, Text.byteSize a + Text.byteSize m⟩ : Span).IsIn text := by
  refine ⟨Nat.le_add_right _ _, ?_, ?_, ?_⟩
  · rw [h, Text.byteSize_append, Text.byteSize_append]
    exact Nat.le_add_right _ _
  · exact Text.isBoundary_iff.2 ⟨a, m ++ b, by rw [h, append_assoc], rfl⟩
  · exact Text.isBoundary_iff.2 ⟨a ++ m, b, h, Text.byteSize_append a m⟩

/-- What the range of a part of a text covers. -/
theorem Span.slice?_of_eq {a m b : List Char} (h : text = a ++ m ++ b) :
    (⟨Text.byteSize a, Text.byteSize a + Text.byteSize m⟩ : Span).slice? text = some m := by
  have hfirst : Text.splitAt? (Text.byteSize a) text = some (a, m ++ b) :=
    Text.splitAt?_eq_some_iff.2 ⟨by rw [h, append_assoc], rfl⟩
  have hsecond : Text.splitAt? (Text.byteSize m) (m ++ b) = some (m, b) :=
    Text.splitAt?_eq_some_iff.2 ⟨rfl, rfl⟩
  simp [Span.slice?, Text.slice?, hfirst, hsecond]

/-! ## Tokens that follow each other -/

/-- Tokens that follow each other, no two of them from the same offset. -/
abbrev Ordered (ts : List Token) : Prop :=
  ts.Pairwise fun t u => t.stop ≤ u.start ∧ t.start < u.start

namespace Ordered

variable {t u : Token} {ts us pre mid post : List Token}

theorem le_lastStop (h : Ordered (t :: ts)) (hu : u ∈ t :: ts) : u.stop ≤ lastStop t.stop ts := by
  induction ts generalizing t u with
  | nil =>
    rw [mem_singleton.1 hu]
    rfl
  | cons t' ts ih =>
    rw [lastStop_cons]
    rcases mem_cons.1 hu with rfl | hu
    · have hnext := (pairwise_cons.1 h).1 t' (.head _)
      have hle := ih h.of_cons (.head _)
      have := t'.start_le_stop
      omega
    · exact ih h.of_cons hu

/-- The range of tokens goes from the first through the last of them. -/
theorem tokensSpan_eq (h : Ordered (t :: ts)) :
    tokensSpan (t :: ts) = ⟨t.start, lastStop t.stop ts⟩ := by
  have hle := h.le_lastStop (.head _)
  have := t.start_le_stop
  rw [tokensSpan, Span.between, Nat.max_eq_right (by omega)]

theorem start_le (h : Ordered mid) (hu : u ∈ mid) : (tokensSpan mid).start ≤ u.start := by
  cases mid with
  | nil => cases hu
  | cons t ts =>
    rw [h.tokensSpan_eq]
    rcases mem_cons.1 hu with rfl | hu
    · exact Nat.le_refl _
    · have := ((pairwise_cons.1 h).1 u hu).2
      exact Nat.le_of_lt this

theorem stop_le (h : Ordered mid) (hu : u ∈ mid) : u.stop ≤ (tokensSpan mid).stop := by
  cases mid with
  | nil => cases hu
  | cons t ts =>
    rw [h.tokensSpan_eq]
    exact h.le_lastStop hu

/-- The range of tokens ends where one of them does. -/
theorem exists_stop (h : Ordered mid) (hne : mid ≠ []) :
    ∃ u ∈ mid, (tokensSpan mid).stop = u.stop := by
  cases mid with
  | nil => exact absurd rfl hne
  | cons t ts =>
    rw [h.tokensSpan_eq]
    rcases eq_nil_or_concat ts with rfl | ⟨init, last, rfl⟩
    · exact ⟨t, .head _, rfl⟩
    · refine ⟨last, by simp, ?_⟩
      simp [lastStop_append]

theorem exists_start (h : Ordered mid) (hne : mid ≠ []) :
    ∃ u ∈ mid, (tokensSpan mid).start = u.start := by
  cases mid with
  | nil => exact absurd rfl hne
  | cons t ts => exact ⟨t, .head _, by rw [h.tokensSpan_eq]⟩

theorem append (h : Ordered (ts ++ us)) :
    Ordered ts ∧ Ordered us ∧ ∀ t ∈ ts, ∀ u ∈ us, t.stop ≤ u.start ∧ t.start < u.start :=
  pairwise_append.1 h

/-- Tokens among others have a range within the range of those. -/
theorem within (h : Ordered (pre ++ mid ++ post)) (hne : mid ≠ []) :
    (tokensSpan mid).Within (tokensSpan (pre ++ mid ++ post)) := by
  have hmid : Ordered mid := (append (append h).1).2.1
  obtain ⟨u, hu, hstart⟩ := hmid.exists_start hne
  obtain ⟨v, hv, hstop⟩ := hmid.exists_stop hne
  have hmem : ∀ u ∈ mid, u ∈ pre ++ mid ++ post := by
    intro u hu
    simp [hu]
  exact ⟨hstart ▸ start_le h (hmem u hu), hstop ▸ stop_le h (hmem v hv)⟩

/-- The tokens in the range of some that end in a proper token are just those. -/
theorem filter_holds (h : Ordered (pre ++ mid ++ post)) {init : List Token} {last : Token}
    (hmid : mid = init ++ [last]) (hlast : last.start < last.stop) :
    (pre ++ mid ++ post).filter (tokensSpan mid).holds = mid := by
  obtain ⟨hleft, -, hpost⟩ := append h
  obtain ⟨-, hmid', hpre⟩ := append hleft
  have hmem : last ∈ mid := by simp [hmid]
  have hstop := stop_le hmid' hmem
  obtain ⟨u, hu, hstart⟩ := exists_start hmid' (by simp [hmid])
  obtain ⟨v, hv, hend⟩ := exists_stop hmid' (by simp [hmid])
  have hnone : ∀ ts : List Token, (∀ t ∈ ts, (tokensSpan mid).holds t = false) →
      ts.filter (tokensSpan mid).holds = [] := by
    intro ts hts
    rw [filter_eq_nil_iff]
    intro t ht
    rw [hts t ht]
    exact Bool.false_ne_true
  rw [filter_append, filter_append, hnone pre, hnone post, nil_append,
    append_nil, filter_eq_self]
  · intro t ht
    refine Span.holds_iff.2 ⟨start_le hmid' ht, ?_, stop_le hmid' ht⟩
    rw [hmid] at ht hmid'
    have hle : t.start ≤ last.start := by
      rcases mem_append.1 ht with ht | ht
      · exact Nat.le_of_lt ((append hmid').2.2 t ht last (by simp)).2
      · rw [mem_singleton.1 ht]
    omega
  · intro t ht
    have := hpost v (by simp [hv]) t ht
    rw [Bool.eq_false_iff, ne_eq, Span.holds_iff]
    omega
  · intro t ht
    have := hpre t ht u hu
    rw [Bool.eq_false_iff, ne_eq, Span.holds_iff]
    omega

end Ordered

/-! ## Layouts -/

namespace Laid

variable {ts : List Token} {spans : List Span} {s : Span} {t : Token}

/-- The ranges of a layout lie where its tokens lie. -/
theorem bounds (h : Laid Covers ts spans) (hts : Ordered ts) (hs : s ∈ spans) :
    (∃ t ∈ ts, s.start = t.start) ∧ ∃ t ∈ ts, s.stop = t.stop := by
  obtain ⟨pre, mid, post, rfl, hheaded, rfl⟩ := h.exists_of_mem hs
  have hne := hheaded.ne_nil
  have hmid : Ordered mid := (Ordered.append (Ordered.append hts).1).2.1
  obtain ⟨u, hu, hstart⟩ := hmid.exists_start hne
  obtain ⟨v, hv, hstop⟩ := hmid.exists_stop hne
  exact ⟨⟨u, by simp [hu], hstart⟩, v, by simp [hv], hstop⟩

/-- The ranges of a layout follow each other. -/
theorem pairwise (h : Laid Covers ts spans) (hts : Ordered ts) :
    spans.Pairwise fun s s' => s.stop ≤ s'.start := by
  induction h with
  | nil => exact .nil
  | semi _ _ ih => exact ih hts.of_cons
  | @item us ts s spans hs hrest ih =>
    obtain ⟨hus, hts', hbetween⟩ := Ordered.append hts
    refine .cons ?_ (ih hts')
    intro s' hs'
    obtain ⟨⟨u, hu, hstart⟩, -⟩ := hrest.bounds hts' hs'
    obtain ⟨hheaded, rfl⟩ := hs
    obtain ⟨v, hv, hstop⟩ := hus.exists_stop hheaded.ne_nil
    rw [hstop, hstart]
    exact (hbetween v hv u hu).1

/-- Every token stands in a range of a layout or outside of it. -/
theorem holds_or_outside (h : Laid Covers ts spans) (hts : Ordered ts) (ht : t ∈ ts)
    (hs : s ∈ spans) : s.holds t = true ∨ t.stop ≤ s.start ∨ s.stop ≤ t.start := by
  obtain ⟨pre, mid, post, rfl, hheaded, rfl⟩ := h.exists_of_mem hs
  have hne := hheaded.ne_nil
  obtain ⟨hleft, -, hpost⟩ := Ordered.append hts
  obtain ⟨-, hmid, hpre⟩ := Ordered.append hleft
  obtain ⟨u, hu, hstart⟩ := hmid.exists_start hne
  obtain ⟨v, hv, hstop⟩ := hmid.exists_stop hne
  rcases mem_append.1 ht with ht | ht
  · rcases mem_append.1 ht with ht | ht
    · exact .inr (.inl (hstart ▸ (hpre t ht u hu).1))
    · by_cases hlt : t.start < (tokensSpan mid).stop
      · exact .inl (Span.holds_iff.2 ⟨hmid.start_le ht, hlt, hmid.stop_le ht⟩)
      · exact .inr (.inr (Nat.le_of_not_lt hlt))
  · exact .inr (.inr (hstop ▸ (hpost v (by simp [hv]) t ht).1))

/-- Every token of a layout that is no semicolon stands in exactly one of its ranges. -/
theorem countP_holds (h : Laid Covers ts spans) (hts : Ordered ts)
    (hsize : ∀ t ∈ ts, t.kind ≠ .semi → t.start < t.stop) (ht : t ∈ ts) (hkind : t.kind ≠ .semi) :
    spans.countP (·.holds t) = 1 := by
  induction h with
  | nil => cases ht
  | @semi t' ts spans hsemi hrest ih =>
    rcases mem_cons.1 ht with rfl | ht
    · exact absurd hsemi hkind
    · exact ih hts.of_cons (fun u hu => hsize u (.tail _ hu)) ht
  | @item us ts s spans hs hrest ih =>
    obtain ⟨hus, hts', hbetween⟩ := Ordered.append hts
    obtain ⟨hheaded, rfl⟩ := hs
    have hpos := hsize t ht hkind
    rw [countP_cons]
    rcases mem_append.1 ht with ht | ht
    · -- The token is one of the first item, so the ranges behind start too late.
      have hin : (tokensSpan us).holds t = true := by
        have hle := hus.stop_le ht
        exact Span.holds_iff.2 ⟨hus.start_le ht, by omega, hle⟩
      have hout : spans.countP (·.holds t) = 0 := by
        rw [countP_eq_zero]
        intro s' hs'
        obtain ⟨⟨u, hu, hstart⟩, -⟩ := hrest.bounds hts' hs'
        have := (hbetween t ht u hu).1
        rw [Span.holds_iff]
        omega
      rw [hout, if_pos hin]
    · have hout : (tokensSpan us).holds t = false := by
        obtain ⟨v, hv, hstop⟩ := hus.exists_stop hheaded.ne_nil
        have := (hbetween v hv t ht).1
        rw [Bool.eq_false_iff, ne_eq, Span.holds_iff]
        omega
      rw [hout, ih hts' (fun u hu => hsize u (mem_append_right _ hu)) ht]
      rfl

end Laid

/-! ## Ranges of tokens in a text -/

/-- The text in the range of tokens is what they were written as. -/
theorem Tiled.slice {pre mid post : List Token}
    (h : Tiled 0 text (pre ++ mid ++ post)) (hne : mid ≠ []) :
    (tokensSpan mid).IsIn text ∧
      (tokensSpan mid).slice? text = some (Parser.writtenText mid).toList := by
  cases mid with
  | nil => exact absurd rfl hne
  | cons t us =>
    have hordered : Ordered (t :: us) := (Ordered.append (Ordered.append h.pairwise).1).2.1
    rw [append_assoc, cons_append] at h
    obtain ⟨a, b, htext, hstart, hstop⟩ := h.segment rfl
    rw [Nat.zero_add] at hstart
    have hspan : tokensSpan (t :: us) = ⟨Text.byteSize a,
        Text.byteSize a + Text.byteSize (Parser.writtenText (t :: us)).toList⟩ := by
      rw [hordered.tokensSpan_eq, ← hstop, hstart]
    rw [hspan]
    exact ⟨Span.isIn_of_eq htext, Span.slice?_of_eq htext⟩

/-! ## Files -/

/-- A package of an import stands in a text: its name, if it has one, and a string literal that
writes its path. -/
def ImportSpec.StandsIn (spec : ImportSpec) (text : List Char) (tokens : List Token) : Prop :=
  ∃ literal ∈ tokens, Parser.isTag (some literal.kind) = true ∧
    spec.path = Parser.unquote literal.text ∧
    (tokens.filter spec.span.holds).map (·.text) = spec.name.toList ++ [literal.text] ∧
    ∃ gap, (spec.name = none → gap = []) ∧
      spec.span.slice? text = some ((spec.name.getD "").toList ++ gap ++ literal.text.toList)

/-- How the parts of a file lie in the text with these tokens. -/
structure SourceFile.Accounts (f : SourceFile) (text : List Char) (tokens : List Token) : Prop where
  /-- The parts follow each other in source order. -/
  ordered : f.parts.Pairwise fun s s' => s.stop ≤ s'.start
  /-- No part is empty, and each lies in the text and splits no character. -/
  bounded : ∀ s ∈ f.parts, s.start < s.stop ∧ s.IsIn text
  /-- Every token that is no semicolon stands in exactly one of the parts. -/
  inside : ∀ t ∈ tokens, t.kind ≠ .semi → f.parts.countP (·.holds t) = 1
  /-- A token that stands in no part is a semicolon and touches none. -/
  outside : ∀ t ∈ tokens, (∀ s ∈ f.parts, s.holds t = false) →
    t.kind = .semi ∧ ∀ s ∈ f.parts, t.stop ≤ s.start ∨ s.stop ≤ t.start
  /-- The packages of an import declaration stand in it, between its parentheses. -/
  imports : ∀ d ∈ f.imports, d.lparen.isSome = d.rparen.isSome ∧ ∀ spec ∈ d.specs,
    spec.span.Within d.span ∧ (∀ l ∈ d.lparen, l.stop ≤ spec.span.start) ∧
      (∀ r ∈ d.rparen, spec.span.stop ≤ r.start) ∧ spec.StandsIn text tokens
  /-- The types of a declaration stand in it. -/
  types : ∀ span specs, Decl.types span specs ∈ f.decls → ∀ spec ∈ specs,
    spec.span.Within span ∧ spec.span.IsIn text
  /-- The body of a function stands in it, from a brace to the one that first balances it. -/
  bodies : ∀ decl, Decl.func decl ∈ f.decls → ∀ b ∈ decl.body,
    b.Within decl.span ∧ IsBody (tokens.filter b.holds) ∧
      ∃ inner, b.slice? text = some ('\x7b' :: inner ++ ['\x7d'])

section Text

variable {text : List Char} {tokens pre mid post : List Token}

theorem ImportSpec.ReadFrom.standsIn {spec : ImportSpec} {literal : Token}
    (h : spec.ReadFrom mid literal) (htokens : tokenize text = .ok (pre ++ mid ++ post)) :
    spec.StandsIn text (pre ++ mid ++ post) := by
  have htiled := tiled_of_tokenize htokens
  have hread : ∀ t ∈ mid, t.IsRead := by
    intro t ht
    exact isRead_of_tokenize htokens (by simp [ht])
  have hmem : literal ∈ mid ∧ ∃ init, mid = init ++ [literal] := by
    rcases h.name with ⟨-, rfl⟩ | ⟨t, rfl, -⟩
    · exact ⟨by simp, [], rfl⟩
    · exact ⟨by simp, [t], rfl⟩
  obtain ⟨hmem, init, hinit⟩ := hmem
  have hne : mid ≠ [] := ne_nil_of_mem hmem
  have hliteral : literal.kind ≠ .semi := by
    intro hsemi
    have htag := h.isTag
    rw [hsemi] at htag
    cases htag
  have hfilter := Ordered.filter_holds htiled.pairwise hinit ((hread literal hmem).start_lt_stop hliteral)
  refine ⟨literal, by simp [hmem], h.isTag, h.path, ?_⟩
  rw [h.span, hfilter, (htiled.slice hne).2]
  rcases h.name with ⟨hname, rfl⟩ | ⟨t, rfl, hname⟩
  · rw [hname]
    exact ⟨rfl, [], fun _ => rfl, by simp [Parser.writtenText]⟩
  · have htext : spec.name = some t.text := by
      rcases hname with ⟨-, hname⟩ | ⟨hkind, hname⟩
      · exact hname
      · have hdot : (".", t.kind) ∈ TokenKind.operators := by rw [hkind]; decide
        rw [hname, (hread t (by simp)).text_eq (by rw [hkind]; decide) hdot]
    rw [htext]
    exact ⟨rfl, literal.lead.toList, by simp, by simp [Parser.writtenText]⟩

theorem ImportDecl.ReadFrom.specs_stand {d : ImportDecl} (h : d.ReadFrom mid)
    (htokens : tokenize text = .ok (pre ++ mid ++ post)) :
    d.lparen.isSome = d.rparen.isSome ∧ ∀ spec ∈ d.specs,
      spec.span.Within d.span ∧ (∀ l ∈ d.lparen, l.stop ≤ spec.span.start) ∧
        (∀ r ∈ d.rparen, spec.span.stop ≤ r.start) ∧
        spec.StandsIn text (pre ++ mid ++ post) := by
  have hordered := (tiled_of_tokenize htokens).pairwise
  have hmid : Ordered mid := (Ordered.append (Ordered.append hordered).1).2.1
  rcases h.specs with ⟨kw, spec, us, literal, rfl, hspecs, hl, hr, hspec⟩ |
    ⟨kw, l, inner, r, rfl, hl, hr, hinner⟩
  · rw [hl, hr]
    refine ⟨rfl, fun spec' hspec' => ?_⟩
    rw [hspecs] at hspec'
    obtain rfl := mem_singleton.1 hspec'
    have hne : us ≠ [] := by
      rcases hspec.name with ⟨-, rfl⟩ | ⟨t, rfl, -⟩ <;> simp
    have hwithin : (tokensSpan us).Within (tokensSpan ([kw] ++ us ++ [])) :=
      Ordered.within (by simpa using hmid) hne
    have hassoc : pre ++ kw :: us ++ post = (pre ++ [kw]) ++ us ++ post := by simp
    rw [hassoc] at htokens ⊢
    refine ⟨?_, by simp, by simp, hspec.standsIn htokens⟩
    rw [hspec.span, h.span]
    simpa using hwithin
  · rw [hl, hr]
    refine ⟨rfl, fun spec hspec => ?_⟩
    obtain ⟨p, m, q, rfl, literal, hspec⟩ := hinner.exists_of_mem hspec
    have hne : m ≠ [] := by
      rcases hspec.name with ⟨-, rfl⟩ | ⟨t, rfl, -⟩ <;> simp
    have hsplit : kw :: l :: (p ++ m ++ q) ++ [r] = (kw :: l :: p) ++ m ++ (q ++ [r]) := by simp
    rw [hsplit] at hmid
    obtain ⟨hleft, -, hright⟩ := Ordered.append hmid
    obtain ⟨-, hm, hbetween⟩ := Ordered.append hleft
    obtain ⟨u, hu, hstart⟩ := hm.exists_start hne
    obtain ⟨v, hv, hstop⟩ := hm.exists_stop hne
    have hassoc : pre ++ (kw :: l :: (p ++ m ++ q) ++ [r]) ++ post
        = (pre ++ kw :: l :: p) ++ m ++ (q ++ r :: post) := by simp
    have hread := h.span
    rw [hassoc] at htokens ⊢
    rw [hsplit] at hread
    rw [hspec.span, hread]
    refine ⟨Ordered.within hmid hne, ?_, ?_, hspec.standsIn htokens⟩
    · intro l' hl'
      cases hl'
      rw [hstart]
      exact (hbetween l (by simp) u hu).1
    · intro r' hr'
      cases hr'
      rw [hstop]
      exact (hright v (by simp [hv]) r (by simp)).1

/-- The text of a body starts and ends with its braces. -/
theorem IsBody.written (h : IsBody mid) (hread : ∀ t ∈ mid, t.IsRead) :
    ∃ inner, (Parser.writtenText mid).toList = '\x7b' :: inner ++ ['\x7d'] := by
  obtain ⟨l, inner, r, rfl, hl, hr⟩ := h.shape
  have hlbrace : ("\x7b", l.kind) ∈ TokenKind.operators := by rw [hl]; decide
  have hrbrace : ("\x7d", r.kind) ∈ TokenKind.operators := by rw [hr]; decide
  have hltext := (hread l (by simp)).text_eq (by rw [hl]; decide) hlbrace
  have hrtext := (hread r (by simp)).text_eq (by rw [hr]; decide) hrbrace
  refine ⟨(String.join (inner.map fun t => t.lead ++ t.text) ++ r.lead).toList, ?_⟩
  simp [Parser.writtenText, hltext, hrtext]

/-- The body of a function is the text from a brace to the one that first balances it. -/
theorem FuncDecl.BodyReadFrom.stands {decl : FuncDecl} (h : decl.BodyReadFrom mid)
    (hspan : decl.span = tokensSpan mid) (htokens : tokenize text = .ok (pre ++ mid ++ post))
    {b : Span} (hb : b ∈ decl.body) :
    b.Within decl.span ∧ IsBody ((pre ++ mid ++ post).filter b.holds) ∧
      ∃ inner, b.slice? text = some ('\x7b' :: inner ++ ['\x7d']) := by
  obtain ⟨p, m, rfl, hbody, rfl⟩ := h b hb
  have htiled := tiled_of_tokenize htokens
  have hmid : Ordered (p ++ m) := (Ordered.append (Ordered.append htiled.pairwise).1).2.1
  have hassoc : pre ++ (p ++ m) ++ post = (pre ++ p) ++ m ++ post := by simp
  rw [hassoc] at htokens htiled ⊢
  have hread : ∀ t ∈ m, t.IsRead := fun t ht => isRead_of_tokenize htokens (by simp [ht])
  obtain ⟨l, inner, r, hm, hl, hr⟩ := hbody.shape
  have hne : m ≠ [] := by simp [hm]
  have hlast : r.start < r.stop :=
    (hread r (by simp [hm])).start_lt_stop (by rw [hr]; decide)
  have hwithin : (tokensSpan m).Within (tokensSpan (p ++ m ++ [])) :=
    Ordered.within (by simpa using hmid) hne
  rw [append_nil, ← hspan] at hwithin
  rw [Ordered.filter_holds htiled.pairwise hm hlast, (htiled.slice hne).2]
  obtain ⟨text', htext'⟩ := hbody.written hread
  exact ⟨hwithin, hbody, text', by rw [htext']⟩

end Text

/-- Reading a file accounts for every token of its text. -/
theorem SourceFile.accounts_of_parse {text : String} {f : SourceFile}
    (h : SourceFile.parse text = .ok f) :
    ∃ tokens, tokenize text.toList = .ok tokens ∧ f.Accounts text.toList tokens := by
  obtain ⟨tokens, s', htokens, hfile⟩ := Parser.run_ok h
  obtain ⟨hlaid, himports, hdecls⟩ :=
    Parser.reads_file ⟨0, [], false, text.toList, htokens⟩ hfile
  have htiled := tiled_of_tokenize htokens
  have hordered : Ordered tokens := htiled.pairwise
  have hsize : ∀ t ∈ tokens, t.kind ≠ .semi → t.start < t.stop :=
    fun t ht => (isRead_of_tokenize htokens ht).start_lt_stop
  refine ⟨tokens, htokens, hlaid.pairwise hordered, ?_, ?_, ?_, ?_, ?_, ?_⟩
  · intro s hs
    obtain ⟨pre, mid, post, rfl, ⟨t, us, rfl, hkind⟩, rfl⟩ := hlaid.exists_of_mem hs
    have hmid : Ordered (t :: us) := (Ordered.append (Ordered.append hordered).1).2.1
    have hlt := hsize t (by simp) hkind
    have hstart := hmid.start_le (.head us)
    have hstop := hmid.stop_le (.head us)
    exact ⟨by omega, (htiled.slice (by simp)).1⟩
  · intro t ht hkind
    exact hlaid.countP_holds hordered hsize ht hkind
  · intro t ht hout
    refine ⟨?_, fun s hs => ?_⟩
    · by_contra hkind
      have hone := hlaid.countP_holds hordered hsize ht hkind
      rw [countP_eq_zero.2 fun s hs => by rw [hout s hs]; exact Bool.false_ne_true] at hone
      cases hone
    · rcases hlaid.holds_or_outside hordered ht hs with hin | hout'
      · rw [hout s hs] at hin
        cases hin
      · exact hout'
  · intro d hd
    obtain ⟨pre, mid, post, rfl, hread⟩ := himports d hd
    exact hread.specs_stand htokens
  · intro span specs hd spec hspec
    obtain ⟨pre, mid, post, rfl, hread, -⟩ := hdecls _ hd
    obtain ⟨p, m, q, rfl, hne, hspan⟩ := hread.inner spec hspec
    have hmid := (Ordered.append (Ordered.append hordered).1).2.1
    have hassoc : pre ++ (p ++ m ++ q) ++ post = (pre ++ p) ++ m ++ (q ++ post) := by simp
    rw [hassoc] at htiled
    rw [hspan]
    refine ⟨?_, (htiled.slice hne).1⟩
    have hwithin := Ordered.within hmid hne
    rw [← hread.span] at hwithin
    exact hwithin
  · intro decl hd b hb
    obtain ⟨pre, mid, post, rfl, hread, -⟩ := hdecls _ hd
    exact FuncDecl.BodyReadFrom.stands hread.inner hread.span htokens hb

/-- A file with a part of every kind. -/
def SourceFile.everyPart : String :=
  "package a\n\nimport (\n\tx \"fmt\"; \"os\"\n)\n\ntype (T struct\x7b a int \x7d)\n\n" ++
    "func (t *T) M() \x7b if t \x7b \x7d \x7d\n\nvar v = f(1);;\n"

theorem SourceFile.accounts_of_parse_everyPart :
    ∃ f, SourceFile.parse SourceFile.everyPart = .ok f ∧
      f.parts = [⟨0, 9⟩, ⟨11, 36⟩, ⟨38, 62⟩, ⟨64, 92⟩, ⟨94, 106⟩] ∧
      ∃ tokens, tokenize SourceFile.everyPart.toList = .ok tokens ∧
        f.Accounts SourceFile.everyPart.toList tokens := by
  have hparts : (SourceFile.parse SourceFile.everyPart).toOption.map SourceFile.parts
      = some [⟨0, 9⟩, ⟨11, 36⟩, ⟨38, 62⟩, ⟨64, 92⟩, ⟨94, 106⟩] := by
    decide +kernel
  cases hparse : SourceFile.parse SourceFile.everyPart with
  | error e =>
    rw [hparse] at hparts
    cases hparts
  | ok f =>
    rw [hparse] at hparts
    exact ⟨f, rfl, Option.some.inj hparts, SourceFile.accounts_of_parse hparse⟩

end Stubwright
