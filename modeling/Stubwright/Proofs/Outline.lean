import Stubwright.Proofs.Pieces

/-!
# Texts with the raw literals marked

Two texts are alike if their tokens have the same kinds and texts, wherever these stand.  To compare
a text with what becomes of it, the text is taken as a list of marked characters, the mark telling
whether the character belongs to a raw string literal, and is built up from its end: one token, one
comment, one blank or one line break more in front.

* `token_chars`: blanks and line breaks in a token are those of a literal between quotes.
-/

namespace Stubwright

open List

variable {v z : List Char} {c : Char} {cls : Class}

namespace Lexeme

variable {kind : TokenKind} {quote : Char}

/-! ## The characters of a token -/

theorem rawEnd?_iff : rawEnd? (v ++ z) = some v.length
    ↔ ∃ u, v = u ++ ['\x60'] ∧ '\x60' ∉ u := by
  induction v with
  | nil =>
    have hpos : rawEnd? z ≠ some 0 := by
      cases z with
      | nil => simp [rawEnd?]
      | cons c z => rw [rawEnd?]; split <;> simp
    simp [hpos]
  | cons c v ih =>
    rw [cons_append, rawEnd?]
    split
    next hc =>
      subst hc
      constructor
      · intro h
        obtain rfl : v = [] := by simpa using h
        exact ⟨[], rfl, by simp⟩
      · rintro ⟨u, hu, hmem⟩
        cases u with
        | nil => rw [(List.cons.inj hu).2]; rfl
        | cons d u => exact absurd (mem_cons.2 (.inl (List.cons.inj hu).1)) hmem
    next hc =>
      have hpeel : (rawEnd? (v ++ z)).map (· + 1) = some (c :: v).length
          ↔ rawEnd? (v ++ z) = some v.length := by
        simp
      rw [hpeel, ih]
      constructor
      · rintro ⟨u, rfl, hmem⟩
        exact ⟨c :: u, rfl, by simpa [Ne.symm hc] using hmem⟩
      · rintro ⟨u, hu, hmem⟩
        cases u with
        | nil => exact absurd (List.cons.inj hu).1 hc
        | cons d u => exact ⟨u, (List.cons.inj hu).2, fun h => hmem (mem_cons_of_mem d h)⟩

theorem scan_raw_iff :
    scan c (v ++ z) = .ok (.token .rawStringLit, v.length)
      ↔ c = '\x60' ∧ rawEnd? (v ++ z) = some v.length := by
  constructor
  · intro h
    rcases literal_of_scan h rfl with ⟨hkind, -⟩ | ⟨-, hraw⟩
    · cases hkind
    · exact hraw
  · rintro ⟨rfl, h⟩
    exact scan_raw h

theorem raw_of_scan (h : scan c (v ++ z) = .ok (.token .rawStringLit, v.length)) :
    ∃ u, c :: v = '\x60' :: u ++ ['\x60'] := by
  obtain ⟨rfl, hend⟩ := scan_raw_iff.1 h
  obtain ⟨u, rfl, -⟩ := rawEnd?_iff.1 hend
  exact ⟨u, rfl⟩

theorem isStop_of_numberTail {hex : Bool} {prev : Char}
    (h : numberTail hex prev (v ++ z) = v.length) : ∀ d ∈ v, isStop d = false := by
  induction v generalizing prev with
  | nil => simp
  | cons c v ih =>
    rw [cons_append, numberTail_cons] at h
    split at h
    next hgo =>
      intro d hd
      rcases mem_cons.1 hd with rfl | hd
      · by_contra hstop
        rw [continuesNumber_stop (by simpa using hstop)] at hgo
        cases hgo
      · exact ih (Nat.succ.inj h) d hd
    next => cases h

/-- A token that is no literal between quotes has no blanks and line breaks in it. -/
theorem token_chars (h : scan c (v ++ z) = .ok (.token kind, v.length))
    (hkind : kind ≠ .rawStringLit) :
    (∀ d ∈ v, isStop d = false) ∨ c ≠ '\\' ∧ quotedEnd? c (v ++ z) = some v.length := by
  have htoken := (tokenAt_of_scan h).2.2
  unfold tokenAt at htoken
  split_ifs at htoken with hword hdigit hpoint hchar hstring hraw
  · obtain ⟨-, hlen⟩ := Prod.mk.inj (Except.ok.inj htoken)
    refine .inl fun d hd => ?_
    have hgo := all_eq_true.1 (length_takeWhile_append.1 hlen).1 d hd
    by_contra hstop
    rcases isStop_cases (by simpa using hstop) with rfl | rfl | rfl | rfl | rfl | rfl <;>
      exact absurd hgo (by decide)
  · exact .inl (isStop_of_numberTail (Prod.mk.inj (Except.ok.inj htoken)).2)
  · cases v with
    | nil => cases htoken
    | cons e v =>
      obtain ⟨-, hlen⟩ := Prod.mk.inj (Except.ok.inj htoken)
      refine .inl fun d hd => ?_
      rcases mem_cons.1 hd with rfl | hd
      · have hdigit' : d.isDigit = true := by simpa using ((Bool.and_eq_true _ _).mp hpoint).2
        by_contra hstop
        rcases isStop_cases (by simpa using hstop) with rfl | rfl | rfl | rfl | rfl | rfl <;>
          exact absurd hdigit' (by decide)
      · exact isStop_of_numberTail (Nat.succ.inj hlen) d hd
  · refine .inr ⟨by rw [hchar]; decide, ?_⟩
    split at htoken
    next n hend =>
      split at htoken
      · cases htoken
      · obtain ⟨-, hlen⟩ := Prod.mk.inj (Except.ok.inj htoken)
        rw [hend, hlen]
    next => cases htoken
  · refine .inr ⟨by rw [hstring]; decide, ?_⟩
    split at htoken
    next n hend =>
      obtain ⟨-, hlen⟩ := Prod.mk.inj (Except.ok.inj htoken)
      rw [hend, hlen]
    next => cases htoken
  · split at htoken
    · exact absurd (Prod.mk.inj (Except.ok.inj htoken)).1.symm hkind
    · cases htoken
  · split at htoken
    next kind' n hfind =>
      obtain ⟨e, he, hentry⟩ := Option.map_eq_some_iff.1 hfind
      obtain ⟨rfl, -⟩ := Prod.mk.inj hentry
      obtain ⟨rfl, -⟩ := Prod.mk.inj (Except.ok.inj htoken)
      have hmem := mem_of_find?_eq_some he
      have htail : v = e.1.toList.tail := by rw [← text_of_operator hmem h]; rfl
      rw [htail]
      exact .inl (isStop_of_mem_tail e hmem)
    next => cases htoken

/-- What is left of a literal between quotes starts with the closing quote, with a backslash and
another character, or with some other character. -/
theorem quotedEnd?_cases (hquote : quote ≠ '\\')
    (h : quotedEnd? quote (v ++ z) = some v.length) :
    v = [quote] ∨
      (∃ d w, v = '\\' :: d :: w ∧ d ≠ '\n' ∧ quotedEnd? quote (w ++ z) = some w.length) ∨
      ∃ d w, v = d :: w ∧ d ≠ quote ∧ d ≠ '\\' ∧ isBreak d = false ∧
        quotedEnd? quote (w ++ z) = some w.length := by
  cases v with
  | nil => exact absurd h quotedEnd?_ne_zero
  | cons d v =>
    by_cases hd : d = '\\'
    · subst hd
      refine .inr (.inl ?_)
      cases v with
      | nil =>
        cases z with
        | nil => simp [quotedEnd?, hquote.symm] at h
        | cons e z => by_cases he : e = '\n' <;> simp [quotedEnd?, he] at h
      | cons e v =>
        rw [cons_append, cons_append, quotedEnd?] at h
        split at h
        · cases h
        next he =>
          obtain ⟨n, hn, hlen⟩ := Option.map_eq_some_iff.1 h
          exact ⟨e, v, rfl, he, by rw [hn, Nat.add_right_cancel hlen]⟩
    · rw [cons_append, quotedEnd?_cons hd] at h
      split_ifs at h with heq hbreak
      · obtain rfl : v = [] := by simpa using h
        exact .inl (by rw [heq])
      · obtain ⟨n, hn, hlen⟩ := Option.map_eq_some_iff.1 h
        exact .inr (.inr ⟨d, v, rfl, heq, hd, by simpa using hbreak,
          by rw [hn, Nat.add_right_cancel hlen]⟩)

/-- A literal between quotes has no line feed in it. -/
theorem quoted_chars (hquote : quote ≠ '\\') (hfeed : quote ≠ '\n')
    (h : quotedEnd? quote (v ++ z) = some v.length) : '\n' ∉ v ∧ ∃ u, v = u ++ [quote] := by
  induction hlen : v.length using Nat.strong_induction_on generalizing v with
  | _ n ih =>
    rcases quotedEnd?_cases hquote h with rfl | ⟨d, w, rfl, hd, hw⟩ | ⟨d, w, rfl, -, -, hd, hw⟩
    · exact ⟨by simpa using hfeed.symm, [], rfl⟩
    · obtain ⟨hno, u, rfl⟩ := ih _ (by rw [← hlen, length_cons, length_cons]; omega) hw rfl
      exact ⟨by simpa [hd.symm] using hno, '\\' :: d :: u, rfl⟩
    · obtain ⟨hno, u, rfl⟩ := ih _ (by rw [← hlen, length_cons]; omega) hw rfl
      refine ⟨?_, d :: u, rfl⟩
      have hne : '\n' ≠ d := by
        rintro rfl
        cases hd
      simpa [hne] using hno

theorem isInk_iff : isInk c = true ↔ isSpace c = false ∧ isBreak c = false ∧ c ≠ '﻿' := by
  simp [isInk, and_assoc]

/-- A token that is no raw literal has no line feed in it and ends in something other than a blank
or a line break. -/
theorem token_line (h : scan c (v ++ z) = .ok (.token kind, v.length))
    (hkind : kind ≠ .rawStringLit) :
    '\n' ∉ c :: v ∧ ∃ u d, c :: v = u ++ [d] ∧ isSpace d = false ∧ isBreak d = false := by
  obtain ⟨hspace, hbreak, -⟩ := isInk_iff.1 (tokenAt_of_scan h).1
  have hc : '\n' ≠ c := by
    rintro rfl
    cases hbreak
  rcases token_chars h hkind with hv | ⟨hslash, hend⟩
  · have hfeed : '\n' ∉ v := fun hmem => absurd (hv _ hmem) (by decide)
    refine ⟨by simpa [hc] using hfeed, ?_⟩
    rcases eq_nil_or_concat v with rfl | ⟨u, d, rfl⟩
    · exact ⟨[], c, rfl, hspace, hbreak⟩
    · refine ⟨c :: u, d, by simp, ?_⟩
      have hd := hv d (by simp)
      simp_all [isStop]
  · obtain ⟨hno, u, rfl⟩ := quoted_chars hslash hc.symm hend
    exact ⟨by simpa [hc] using hno, c :: u, c, rfl, hspace, hbreak⟩

/-- A token does not end in a carriage return. -/
theorem token_last (h : scan c (v ++ z) = .ok (.token kind, v.length)) :
    (c :: v).getLast? ≠ some '\x0d' := by
  have hlast : ∃ u d, c :: v = u ++ [d] ∧ isBreak d = false := by
    by_cases hkind : kind = .rawStringLit
    · subst hkind
      obtain ⟨u, hu⟩ := raw_of_scan h
      exact ⟨_, _, hu, rfl⟩
    · obtain ⟨-, u, d, hu, -, hd⟩ := token_line h hkind
      exact ⟨u, d, hu, hd⟩
  obtain ⟨u, d, hu, hd⟩ := hlast
  rw [hu, getLast?_concat]
  rintro ⟨rfl⟩
  cases hd

/-- A token without its offset. -/
structure Entry where
  kind : TokenKind
  /-- What was skipped before it. -/
  lead : List Char
  text : List Char
deriving DecidableEq, Repr

/-- The semicolon that skipped text puts behind a statement. -/
def insertedBy (open_ : Bool) (lead text : List Char) : List Entry :=
  if open_ && hasBreak text then [⟨.semi, lead ++ beforeBreak text, []⟩] else []

/-- What is skipped before the next token once `text` is skipped as well. -/
def leadAfter (open_ : Bool) (lead text : List Char) : List Char :=
  if open_ && hasBreak text then fromBreak text else lead ++ text

/-- The entries of pieces, given what was skipped before them. -/
def entries (lead : List Char) (open_ : Bool) : List Piece → List Entry
  | [] => if open_ then [⟨.semi, lead, []⟩] else []
  | ⟨cls, text⟩ :: ps =>
    match cls with
    | .token kind => ⟨kind, lead, text⟩ :: entries [] kind.endsStatement ps
    | _ => insertedBy open_ lead text ++ entries (leadAfter open_ lead text)
        (open_ && !hasBreak text) ps

theorem entries_token (lead : List Char) (open_ : Bool) (kind : TokenKind) (text : List Char)
    (ps : List Piece) :
    entries lead open_ (⟨.token kind, text⟩ :: ps)
      = ⟨kind, lead, text⟩ :: entries [] kind.endsStatement ps := by
  rw [entries]

theorem entries_trivia (hcls : ∀ kind, cls ≠ .token kind) (lead : List Char) (open_ : Bool)
    (text : List Char) (ps : List Piece) :
    entries lead open_ (⟨cls, text⟩ :: ps)
      = insertedBy open_ lead text
          ++ entries (leadAfter open_ lead text) (open_ && !hasBreak text) ps := by
  cases cls with
  | token kind => exact absurd rfl (hcls kind)
  | _ =>
    rw [entries]
    intro kind h
    cases h

end Lexeme

/-- A token without its offset. -/
def Token.entry (t : Token) : Lexeme.Entry :=
  ⟨t.kind, t.lead.toList, t.text.toList⟩

namespace Lexeme

variable {text lead : List Char} {start open_ : Bool} {ps : List Piece} {es : List Entry}
  {rewrite : List Char → List Char}

theorem map_entry_tokensOf (ps : List Piece) (pos : Nat) (lead : List Char) (open_ : Bool) :
    (tokensOf pos lead open_ ps).map Token.entry = entries lead open_ ps := by
  induction ps generalizing pos lead open_ with
  | nil => cases open_ <;> simp [tokensOf, entries, Token.entry, Token.inserted]
  | cons p ps ih =>
    obtain ⟨cls, text⟩ := p
    rcases cls.token_or with ⟨kind, rfl⟩ | hcls
    · rw [tokensOf_token, entries_token, map_cons, ih]
      simp [Token.entry]
    · rw [tokensOf_trivia hcls, entries_trivia hcls, insertedBy, leadAfter]
      cases hopen : open_ && hasBreak text with
      | true =>
        rw [if_pos rfl, if_pos rfl, if_pos rfl, map_cons, ih]
        simp_all [Token.entry, Token.inserted]
      | false =>
        have hstill : (open_ && !hasBreak text) = open_ := by
          cases open_ <;> simp_all
        rw [if_neg Bool.false_ne_true, if_neg Bool.false_ne_true, if_neg Bool.false_ne_true, hstill,
          ih, nil_append]

/-! ## Skipped text -/

theorem blockCommentEnd?_cons (c : Char) (cs : List Char) : blockCommentEnd? (c :: cs)
    = if c = '*' ∧ cs.head? = some '/' then some 2 else (blockCommentEnd? cs).map (· + 1) := by
  by_cases h : c = '*' ∧ cs.head? = some '/'
  · obtain ⟨rfl, hhead⟩ := h
    obtain ⟨cs, rfl⟩ := head?_eq_some_iff.1 hhead
    rfl
  · rw [if_neg h, blockCommentEnd?]
    rintro cs' rfl rfl
    exact h ⟨rfl, rfl⟩

/-- A comment up to its end mark is that mark, or a character before such a comment. -/
theorem comment_cases {u : List Char} (h : blockCommentEnd? u = some u.length) :
    u = ['*', '/'] ∨ ∃ c v, u = c :: v ∧ ¬(c = '*' ∧ v.head? = some '/') ∧
      blockCommentEnd? v = some v.length := by
  cases u with
  | nil => cases h
  | cons c v =>
    rw [blockCommentEnd?_cons] at h
    split at h
    next hmark =>
      obtain ⟨rfl, hhead⟩ := hmark
      obtain ⟨v, rfl⟩ := head?_eq_some_iff.1 hhead
      obtain rfl : v = [] := by simpa using h
      exact .inl rfl
    next hmark =>
      obtain ⟨n, hn, hlen⟩ := Option.map_eq_some_iff.1 h
      exact .inr ⟨c, v, rfl, hmark, by rw [hn, Nat.add_right_cancel hlen]⟩

theorem comment_cons_iff (hmark : ¬(c = '*' ∧ v.head? = some '/')) :
    blockCommentEnd? (c :: v) = some (c :: v).length ↔ blockCommentEnd? v = some v.length := by
  rw [blockCommentEnd?_cons, if_neg hmark]
  simp

theorem comment_cons (hmark : ¬(c = '*' ∧ v.head? = some '/'))
    (h : blockCommentEnd? v = some v.length) : blockCommentEnd? (c :: v) = some (c :: v).length :=
  (comment_cons_iff hmark).2 h

section

variable {lead text u v : List Char} {open_ : Bool} {c : Char}

theorem hasBreak_append (u v : List Char) : hasBreak (u ++ v) = (hasBreak u || hasBreak v) := by
  rw [hasBreak, any_append, ← hasBreak, ← hasBreak]

theorem hasBreak_nil : hasBreak [] = false :=
  rfl

theorem hasBreak_cons_eq (c : Char) (v : List Char) :
    hasBreak (c :: v) = (isBreak c || hasBreak v) :=
  rfl

theorem not_mem_of_hasBreak {text : List Char} {d : Char} (h : hasBreak text = false)
    (hd : isBreak d = true) : d ∉ text :=
  fun hmem => absurd hd (any_eq_false.1 h d hmem)

theorem hasBreak_of_isSpace (h : text.all isSpace = true) : hasBreak text = false := by
  rw [hasBreak, any_eq_false]
  intro d hd hbreak
  have hspace := all_eq_true.1 h d hd
  rw [isSpace_eq_false_of_isBreak hbreak] at hspace
  exact Bool.false_ne_true hspace

theorem insertedBy_of_not_hasBreak (h : hasBreak text = false) : insertedBy open_ lead text = [] := by
  simp [insertedBy, h]

theorem leadAfter_of_not_hasBreak (h : hasBreak text = false) :
    leadAfter open_ lead text = lead ++ text := by
  simp [leadAfter, h]

theorem beforeBreak_append (u v : List Char) : beforeBreak (u ++ v)
    = if hasBreak u then beforeBreak u else u ++ beforeBreak v := by
  induction u with
  | nil => rfl
  | cons c u ih =>
    cases hc : isBreak c with
    | true => simp [beforeBreak, hasBreak_cons_eq, hc]
    | false =>
      have hstep : ∀ w, beforeBreak (c :: w) = c :: beforeBreak w := fun w => by
        simp [beforeBreak, hc]
      rw [cons_append, hstep, ih, hstep, hasBreak_cons_eq, hc, Bool.false_or]
      split <;> rfl

theorem fromBreak_append (u v : List Char) : fromBreak (u ++ v)
    = if hasBreak u then fromBreak u ++ v else fromBreak v := by
  induction u with
  | nil => rfl
  | cons c u ih => cases hc : isBreak c <;> simp_all [fromBreak, hasBreak_cons_eq]

/-- A line break in skipped text counts once: behind it nothing more is inserted. -/
theorem insertedBy_append : insertedBy open_ lead (u ++ v)
    = insertedBy open_ lead u ++ insertedBy (open_ && !hasBreak u) (leadAfter open_ lead u) v := by
  simp only [insertedBy, leadAfter, hasBreak_append, beforeBreak_append]
  cases open_ <;> cases hasBreak u <;> simp

theorem leadAfter_append : leadAfter open_ lead (u ++ v)
    = leadAfter (open_ && !hasBreak u) (leadAfter open_ lead u) v := by
  simp only [leadAfter, hasBreak_append, fromBreak_append]
  cases open_ <;> cases hasBreak u <;> simp

theorem insertedBy_false (lead text : List Char) : insertedBy false lead text = [] :=
  rfl

theorem hasBreak_cons (hc : isBreak c = true) (v : List Char) : hasBreak (c :: v) = true := by
  rw [hasBreak, any_cons, hc, Bool.true_or]

theorem hasBreak_beforeBreak (text : List Char) : hasBreak (beforeBreak text) = false := by
  rw [hasBreak, any_eq_false]
  intro d hd
  simpa using mem_takeWhile_imp hd

theorem hasBreak_leadAfter (h : hasBreak text = true) :
    hasBreak (leadAfter open_ lead text) = true := by
  rw [leadAfter]
  split
  · rwa [← beforeBreak_append_fromBreak text, hasBreak_append, hasBreak_beforeBreak,
      Bool.false_or] at h
  · rw [hasBreak_append, h, Bool.or_true]

theorem insertedBy_cons (hc : isBreak c = true) (v : List Char) :
    insertedBy open_ lead (c :: v) = if open_ then [⟨.semi, lead, []⟩] else [] := by
  rw [insertedBy, hasBreak_cons hc, Bool.and_true]
  simp [beforeBreak, hc]

theorem leadAfter_cons (hc : isBreak c = true) (v : List Char) :
    leadAfter open_ lead (c :: v) = (if open_ then [] else lead) ++ c :: v := by
  rw [leadAfter, hasBreak_cons hc, Bool.and_true]
  cases open_ <;> simp [fromBreak, hc]

end

/-! ## Marked characters -/

/-- A character, and whether it belongs to a raw string literal. -/
abbrev Marked := Char × Bool

/-- The characters of pieces with their marks. -/
def paint (ps : List Piece) : List Marked :=
  ps.flatMap fun p => p.text.map (·, p.cls == .token .rawStringLit)

/-- The characters without their marks. -/
abbrev chars (m : List Marked) : List Char :=
  m.map Prod.fst

/-- Characters that belong to no raw string literal. -/
abbrev plain (text : List Char) : List Marked :=
  text.map (·, false)

theorem paint_cons (p : Piece) (ps : List Piece) :
    paint (p :: ps) = p.text.map (·, p.cls == .token .rawStringLit) ++ paint ps :=
  rfl

theorem token_beq_token (kind kind' : TokenKind) :
    (Class.token kind == .token kind') = (kind == kind') := by
  rw [Bool.eq_iff_iff, beq_iff_eq, beq_iff_eq, Class.token.injEq]

theorem chars_map (text : List Char) (b : Bool) : chars (text.map (·, b)) = text := by
  simp [chars, Function.comp_def]

theorem chars_append (m m' : List Marked) : chars (m ++ m') = chars m ++ chars m' :=
  map_append

theorem chars_cons (x : Marked) (m : List Marked) : chars (x :: m) = x.1 :: chars m :=
  rfl

theorem chars_paint (ps : List Piece) : chars (paint ps) = textOf ps := by
  induction ps with
  | nil => rfl
  | cons p ps ih =>
    rw [paint_cons, chars, map_append, ← chars, chars_map, ← chars, ih, textOf, textOf,
      flatMap_cons]

/-! ## Marked characters and their entries -/

/-- A text is skipped before the text `k`: one blank, one line break, a comment, or at the `start` a
byte order mark. -/
inductive Skips (start : Bool) : List Char → List Char → Prop
  | blank {c : Char} {k : List Char} (hc : isSpace c = true) : Skips start [c] k
  | newline {c : Char} {k : List Char} (hc : isBreak c = true) : Skips start [c] k
  | mark {k : List Char} (hstart : start = true) : Skips start ['﻿'] k
  | lineComment {u k : List Char} (hu : hasBreak u = false) (hk : k.head?.all isBreak = true) :
      Skips start ('/' :: '/' :: u) k
  | blockComment {u k : List Char} (hu : blockCommentEnd? u = some u.length) :
      Skips start ('/' :: '*' :: u) k

theorem Skips.of_false {u k : List Char} (h : Skips false u k) : Skips start u k := by
  cases h with
  | blank hc => exact .blank hc
  | newline hc => exact .newline hc
  | mark hstart => cases hstart
  | lineComment hu hk => exact .lineComment hu hk
  | blockComment hu => exact .blockComment hu

/-- Skipped texts that follow each other, before the text `k`. -/
inductive Gap (k : List Char) : (start : Bool) → List Char → Prop
  | nil {start : Bool} : Gap k start []
  | cons {start : Bool} {u v : List Char} (hskip : Skips start u (v ++ k)) (hrest : Gap k false v) :
      Gap k start (u ++ v)

namespace Gap

variable {start : Bool} {u v k z : List Char}

theorem of_skips (h : Skips start u k) : Gap k start u := by
  rw [← append_nil u]
  exact .cons h .nil

theorem of_false (h : Gap k false u) : Gap k start u := by
  cases h with
  | nil => exact .nil
  | cons hskip hrest => exact .cons hskip.of_false hrest

theorem append (hu : Gap (v ++ k) start u) (hv : Gap k false v) : Gap k start (u ++ v) := by
  induction hu with
  | nil => exact hv.of_false
  | cons hskip _ ih =>
    rw [append_assoc]
    exact .cons (by rwa [append_assoc]) ih

theorem blanks (h : u.all isSpace = true) : Gap k start u := by
  induction u generalizing start with
  | nil => exact .nil
  | cons c u ih =>
    obtain ⟨hc, hu⟩ := (Bool.and_eq_true _ _).mp h
    exact .cons (u := [c]) (.blank hc) (ih hu)

end Gap

/-- A lexeme that is no token is skipped. -/
theorem gap_of_scan (hscan : scan c (v ++ z) = .ok (cls, v.length))
    (hcls : ∀ kind, cls ≠ .token kind) (hmark : cls = .byteOrderMark → start = true) :
    Gap z start (c :: v) := by
  rcases scan_cases hscan with ⟨rfl, hc, hn⟩ | ⟨rfl, hc, hn⟩ | ⟨rfl, rfl, hn⟩ |
    ⟨rfl, rfl, cs', hcs, hn⟩ | ⟨rfl, rfl, cs', n, hcs, hend, hn⟩ | ⟨kind, rfl, -⟩
  · have hv := (length_takeWhile_append.1 hn.symm).1
    exact .blanks (by rw [all_cons, hc, hv]; rfl)
  · cases v with
    | nil => exact .of_skips (.newline hc)
    | cons d v =>
      rw [length_cons] at hn
      split at hn
      next hbreak =>
        obtain ⟨rfl, hd⟩ := hbreak
        cases hd
        obtain rfl := length_eq_zero_iff.1 (Nat.succ.inj hn)
        exact .cons (u := ['\x0d']) (.newline rfl) (.of_skips (.newline rfl))
      next => cases hn
  · obtain rfl := length_eq_zero_iff.1 hn
    exact .of_skips (.mark (hmark rfl))
  · cases v with
    | nil => cases hn
    | cons d u =>
      obtain ⟨rfl, rfl⟩ := List.cons.inj hcs
      rw [length_cons, Nat.add_right_cancel_iff] at hn
      obtain ⟨hu, hk⟩ := length_takeWhile_append.1 hn.symm
      refine .of_skips (.lineComment (by simpa [hasBreak] using hu) ?_)
      cases z with
      | nil => rfl
      | cons d z => simpa using hk
  · cases v with
    | nil => cases hn
    | cons d u =>
      obtain ⟨rfl, rfl⟩ := List.cons.inj hcs
      rw [length_cons, Nat.add_right_cancel_iff] at hn
      subst hn
      have hu : blockCommentEnd? (u ++ []) = some u.length := blockCommentEnd?_append hend
      rw [append_nil] at hu
      exact .of_skips (.blockComment hu)
  · exact absurd rfl (hcls kind)

/-- Marked characters have these entries, given what was skipped before them. -/
inductive Lexes : (start open_ : Bool) → (lead : List Char) → List Marked → List Entry → Prop
  | nil {start open_ : Bool} {lead : List Char} :
      Lexes start open_ lead [] (if open_ then [⟨.semi, lead, []⟩] else [])
  | skip {start open_ : Bool} {lead text : List Char} {m : List Marked} {es : List Entry}
      (htext : Skips start text (chars m))
      (hrest : Lexes false (open_ && !hasBreak text) (leadAfter open_ lead text) m es) :
      Lexes start open_ lead (plain text ++ m) (insertedBy open_ lead text ++ es)
  | token {start open_ : Bool} {lead v : List Char} {c : Char} {kind : TokenKind} {m : List Marked}
      {es : List Entry} (hscan : scan c (v ++ chars m) = .ok (.token kind, v.length))
      (hrest : Lexes false kind.endsStatement [] m es) :
      Lexes start open_ lead ((c :: v).map (·, kind == .rawStringLit) ++ m)
        (⟨kind, lead, c :: v⟩ :: es)

/-- The first piece of a text. -/
theorem Cut.uncons {k : List Char} (h : Cut start (c :: k) ps) :
    ∃ cls v z ps', k = v ++ z ∧ ps = ⟨cls, c :: v⟩ :: ps' ∧
      scan c (v ++ z) = .ok (cls, v.length) ∧ (cls = .byteOrderMark → start = true) ∧
      Cut false z ps' := by
  generalize hcs : c :: k = cs at h
  cases h with
  | nil => cases hcs
  | @cons _ cls c' v z ps hscan hmark hrest =>
    obtain ⟨rfl, rfl⟩ := List.cons.inj hcs
    exact ⟨cls, v, z, ps, rfl, rfl, hscan, hmark, hrest⟩

namespace Lexes

variable {start open_ : Bool} {lead : List Char} {m : List Marked} {es : List Entry} {c : Char}

theorem pass (htext : Skips start text (chars m)) (hno : hasBreak text = false)
    (h : Lexes false open_ (lead ++ text) m es) : Lexes start open_ lead (plain text ++ m) es := by
  have hrest : Lexes false (open_ && !hasBreak text) (leadAfter open_ lead text) m es := by
    rw [leadAfter_of_not_hasBreak hno, hno, Bool.not_false, Bool.and_true]
    exact h
  have hskip := skip htext hrest
  rw [insertedBy_of_not_hasBreak hno] at hskip
  exact hskip

theorem blank (hc : isSpace c = true) (h : Lexes false open_ (lead ++ [c]) m es) :
    Lexes start open_ lead ((c, false) :: m) es :=
  pass (.blank hc) (hasBreak_of_isSpace (by simpa using hc)) h

theorem newline (hc : isBreak c = true)
    (h : Lexes false (open_ && !hasBreak [c]) (leadAfter open_ lead [c]) m es) :
    Lexes start open_ lead ((c, false) :: m) (insertedBy open_ lead [c] ++ es) :=
  skip (.newline hc) h

theorem newlineAgain (hc : isBreak c = true) (h : Lexes false false (lead ++ [c]) m es) :
    Lexes start false lead ((c, false) :: m) es :=
  newline hc h

theorem blanks (htext : text.all isSpace = true) (h : Lexes false open_ (lead ++ text) m es) :
    Lexes false open_ lead (plain text ++ m) es := by
  induction text generalizing lead with
  | nil => simpa using h
  | cons c text ih =>
    obtain ⟨hc, htext⟩ := (Bool.and_eq_true _ _).mp htext
    refine blank hc (ih htext ?_)
    rw [append_assoc]
    exact h

theorem of_false (h : Lexes false open_ lead m es) : Lexes start open_ lead m es := by
  cases h with
  | nil => exact .nil
  | skip htext hrest => exact .skip htext.of_false hrest
  | token hscan hrest => exact .token hscan hrest

/-- Skipped texts that follow each other are skipped as one. -/
theorem gap (htext : Gap (chars m) start text)
    (h : Lexes false (open_ && !hasBreak text) (leadAfter open_ lead text) m es) :
    Lexes start open_ lead (plain text ++ m) (insertedBy open_ lead text ++ es) := by
  induction htext generalizing open_ lead with
  | nil =>
    rw [leadAfter_of_not_hasBreak rfl, append_nil, hasBreak_nil, Bool.not_false,
      Bool.and_true] at h
    rw [insertedBy_of_not_hasBreak rfl]
    exact of_false h
  | @cons start u v hskip _ ih =>
    rw [insertedBy_append, plain, map_append, append_assoc, append_assoc]
    refine .skip (by rwa [chars_append, chars_map]) (ih ?_)
    rwa [← leadAfter_append, Bool.and_assoc, ← Bool.not_or, ← hasBreak_append]

/-- A line break behind a statement that is closed is skipped. -/
theorem newline_inv (h : Lexes start false lead ((c, false) :: m) es) (hc : isBreak c = true) :
    Lexes false false (lead ++ [c]) m es := by
  generalize hm : (c, false) :: m = m' at h
  generalize ho : false = o at h
  cases h with
  | nil => cases hm
  | skip htext hrest =>
    subst ho
    cases htext with
    | @blank d _ hd =>
      cases hm
      rw [isSpace_eq_false_of_isBreak hc] at hd
      cases hd
    | newline =>
      cases hm
      exact hrest
    | _ =>
      cases hm
      cases hc
  | token hscan hrest =>
    obtain ⟨-, hink, -⟩ := isInk_iff.1 (tokenAt_of_scan hscan).1
    rw [← (Prod.mk.inj (List.cons.inj hm).1).1, hc] at hink
    cases hink

theorem head_cases (h : Lexes start open_ lead m es) (hm : (chars m).head?.all isBreak = true) :
    m = [] ∨ ∃ d m', isBreak d = true ∧ m = (d, false) :: m' := by
  cases h with
  | nil => exact .inl rfl
  | skip htext hrest => cases htext <;> exact .inr ⟨_, _, hm, rfl⟩
  | token hscan hrest =>
    have hink := (tokenAt_of_scan hscan).1
    simp_all [isInk]

end Lexes

/-- A text that is cut into pieces has their entries. -/
theorem lexes_of_cut {cs : List Char} (h : Cut start cs ps) (lead : List Char) (open_ : Bool) :
    Lexes start open_ lead (paint ps) (entries lead open_ ps) := by
  induction h generalizing lead open_ with
  | nil => exact .nil
  | @cons start cls c v z ps hscan hmark hrest ih =>
    have hz : chars (paint ps) = z := by rw [chars_paint, hrest.text_eq]
    rcases cls.token_or with ⟨kind, rfl⟩ | hcls
    · rw [entries_token, paint_cons, token_beq_token]
      exact .token (by rwa [hz]) (ih _ _)
    · have hplain : (cls == .token .rawStringLit) = false := beq_false_of_ne (hcls .rawStringLit)
      rw [entries_trivia hcls, paint_cons, hplain]
      exact .gap (by rw [hz]; exact gap_of_scan hscan hcls hmark) (ih _ _)

/-- A lexeme that is no token in front of pieces. -/
theorem exists_cut_cons (hcls : ∀ kind, cls ≠ .token kind)
    (hscan : scan c (v ++ textOf ps) = .ok (cls, v.length))
    (hmark : cls = .byteOrderMark → start = true) (hcut : Cut false (textOf ps) ps) :
    ∃ ps', Cut start (c :: v ++ textOf ps) ps' ∧ paint ps' = plain (c :: v) ++ paint ps ∧
      entries lead open_ ps' = insertedBy open_ lead (c :: v)
        ++ entries (leadAfter open_ lead (c :: v)) (open_ && !hasBreak (c :: v)) ps := by
  refine ⟨⟨cls, c :: v⟩ :: ps, .cons hscan hmark hcut, ?_, entries_trivia hcls ..⟩
  rw [paint_cons, beq_false_of_ne (hcls .rawStringLit)]

theorem exists_cut_blank (hc : isSpace c = true) (hcut : Cut false (textOf ps) ps) :
    ∃ ps', Cut start (c :: textOf ps) ps' ∧ paint ps' = (c, false) :: paint ps ∧
      entries lead open_ ps' = entries (lead ++ [c]) open_ ps := by
  have hentries : ∀ {text : List Char} (lead : List Char) (ps : List Piece),
      text.all isSpace = true →
        entries lead open_ (⟨.blank, text⟩ :: ps) = entries (lead ++ text) open_ ps := by
    intro text lead ps htext
    have hno := hasBreak_of_isSpace htext
    rw [entries_trivia (by simp), insertedBy_of_not_hasBreak hno, leadAfter_of_not_hasBreak hno, hno,
      Bool.not_false, Bool.and_true, nil_append]
  by_cases hmore : (textOf ps).head?.any isSpace = true
  · obtain ⟨d, k, hk, hd⟩ : ∃ d k, textOf ps = d :: k ∧ isSpace d = true := by
      cases hk : textOf ps with
      | nil => simp [hk] at hmore
      | cons d k => exact ⟨d, k, rfl, by simpa [hk] using hmore⟩
    rw [hk] at hcut ⊢
    obtain ⟨cls, v, z, ps', rfl, rfl, hscan, -, hrest⟩ := hcut.uncons
    rw [scan_space hd] at hscan
    obtain ⟨rfl, hv⟩ := Prod.mk.inj (Except.ok.inj hscan)
    have hall : (d :: v).all isSpace = true := by
      rw [all_cons, hd, (length_takeWhile_append.1 hv).1]; rfl
    have hjoined : scan c (d :: v ++ z) = .ok (.blank, (d :: v).length) := by
      rw [scan_space hc, cons_append, takeWhile_cons_of_pos hd, length_cons, hv]
      rfl
    have hall' : (c :: d :: v).all isSpace = true := by rw [all_cons, hc, hall]; rfl
    refine ⟨⟨.blank, c :: d :: v⟩ :: ps', .cons hjoined (by simp) hrest, rfl, ?_⟩
    rw [hentries lead ps' hall', hentries _ ps' hall, append_assoc, singleton_append]
  · have halone : scan c ([] ++ textOf ps) = .ok (.blank, 0) := by
      rw [scan_space hc]
      exact congrArg _ (congrArg _ (length_takeWhile_append.2 ⟨rfl, by simpa using hmore⟩))
    exact ⟨⟨.blank, [c]⟩ :: ps, .cons halone (by simp) hcut, rfl, hentries lead ps (by simp [hc])⟩

/-- A carriage return joins the line feed behind it. -/
theorem exists_cut_newline (hc : isBreak c = true) (hcut : Cut false (textOf ps) ps) :
    ∃ ps', Cut start (c :: textOf ps) ps' ∧ paint ps' = (c, false) :: paint ps ∧
      entries lead open_ ps' = insertedBy open_ lead [c] ++ entries (leadAfter open_ lead [c]) false ps := by
  have hentries : ∀ {d : Char} (v lead : List Char) (open_ : Bool) (ps : List Piece),
      isBreak d = true → entries lead open_ (⟨.newline, d :: v⟩ :: ps)
        = insertedBy open_ lead [d] ++ entries ((if open_ then [] else lead) ++ d :: v) false ps := by
    intro d v lead open_ ps hd
    rw [entries_trivia (by simp), insertedBy_cons hd, insertedBy_cons hd, leadAfter_cons hd,
      hasBreak_cons hd, Bool.not_true, Bool.and_false]
  rw [leadAfter_cons hc]
  by_cases hmore : c = '\x0d' ∧ (textOf ps).head? = some '\n'
  · obtain ⟨rfl, hhead⟩ := hmore
    obtain ⟨k, hk⟩ : ∃ k, textOf ps = '\n' :: k := by
      cases hk : textOf ps with
      | nil => simp [hk] at hhead
      | cons d k =>
        rw [hk] at hhead
        exact ⟨k, by rw [Option.some.inj hhead]⟩
    rw [hk] at hcut ⊢
    obtain ⟨cls, v, z, ps', rfl, rfl, hscan, -, hrest⟩ := hcut.uncons
    rw [scan_break rfl, if_neg (by simp)] at hscan
    obtain ⟨rfl, hv⟩ := Prod.mk.inj (Except.ok.inj hscan)
    obtain rfl := length_eq_zero_iff.1 hv.symm
    have hjoined : scan '\x0d' (['\n'] ++ z) = .ok (.newline, 1) := by
      rw [scan_break rfl]
      rfl
    refine ⟨⟨.newline, ['\x0d', '\n']⟩ :: ps', .cons hjoined (by simp) hrest, rfl, ?_⟩
    rw [hentries _ _ _ _ rfl, hentries _ _ _ _ rfl, insertedBy_false, nil_append,
      if_neg Bool.false_ne_true, append_assoc, singleton_append]
  · have halone : scan c ([] ++ textOf ps) = .ok (.newline, 0) := by
      rw [scan_break hc, nil_append, if_neg hmore]
    exact ⟨⟨.newline, [c]⟩ :: ps, .cons halone (by simp) hcut, rfl, hentries [] lead open_ ps hc⟩

/-- A skipped text in front of pieces. -/
theorem exists_cut_of_skips (htext : Skips start text (textOf ps))
    (hcut : Cut false (textOf ps) ps) :
    ∃ ps', Cut start (text ++ textOf ps) ps' ∧ paint ps' = plain text ++ paint ps ∧
      entries lead open_ ps' = insertedBy open_ lead text
        ++ entries (leadAfter open_ lead text) (open_ && !hasBreak text) ps := by
  generalize hk : textOf ps = k at htext
  cases htext with
  | @blank c _ hc =>
    have hno : hasBreak [c] = false := hasBreak_of_isSpace (by simpa using hc)
    rw [insertedBy_of_not_hasBreak hno, leadAfter_of_not_hasBreak hno, hno, Bool.not_false,
      Bool.and_true, ← hk]
    exact exists_cut_blank hc hcut
  | @newline c _ hc =>
    rw [hasBreak_cons hc, Bool.not_true, Bool.and_false, ← hk]
    exact exists_cut_newline hc hcut
  | mark hstart =>
    rw [← hk]
    exact exists_cut_cons (by simp) (scan_byteOrderMark _) (fun _ => hstart) hcut
  | @lineComment u _ hu hend =>
    have hcls : ∀ kind, Class.lineComment ≠ .token kind := by simp
    have hwhile : ((u ++ textOf ps).takeWhile fun d => !isBreak d).length = u.length := by
      refine length_takeWhile_append.2 ⟨by simpa [hasBreak] using hu, ?_⟩
      rw [hk]
      cases k with
      | nil => rfl
      | cons d k => simpa using hend
    rw [← hk]
    refine exists_cut_cons hcls ?_ (by simp) hcut
    rw [cons_append, scan_lineComment, hwhile]
    rfl
  | @blockComment u _ hu =>
    have hcls : ∀ kind, Class.blockComment ≠ .token kind := by simp
    have hend : blockCommentEnd? (u ++ textOf ps) = some u.length :=
      blockCommentEnd?_append (z := []) (by rwa [append_nil])
    rw [← hk]
    refine exists_cut_cons hcls ?_ (by simp) hcut
    rw [cons_append, scan_blockComment, hend]
    rfl

variable {m : List Marked}

/-- Marked characters with entries are cut into pieces that have them. -/
theorem Lexes.exists_cut (h : Lexes start open_ lead m es) :
    ∃ ps, Cut start (chars m) ps ∧ paint ps = m ∧ entries lead open_ ps = es := by
  induction h with
  | nil => exact ⟨[], .nil, rfl, rfl⟩
  | skip htext hrest ih =>
    obtain ⟨ps, hcut, rfl, rfl⟩ := ih
    rw [chars_paint] at htext hcut
    rw [chars_append, chars_map, chars_paint]
    exact exists_cut_of_skips htext hcut
  | @token start open_ lead v c kind m es hscan hrest ih =>
    obtain ⟨ps, hcut, rfl, rfl⟩ := ih
    refine ⟨⟨.token kind, c :: v⟩ :: ps, ?_, ?_, entries_token ..⟩
    · rw [chars_append, chars_map]
      exact .cons hscan (by simp) hcut
    · rw [paint_cons, token_beq_token]

/-- What is skipped before a token stays as it is, unless it has a line break, and then it keeps one. -/
def SameLead (lead lead' : List Char) : Prop :=
  lead' = lead ∨ hasBreak lead = true ∧ hasBreak lead' = true

namespace SameLead

variable {lead lead' lead₁ : List Char}

theorem refl (lead : List Char) : SameLead lead lead :=
  .inl rfl

theorem trans (h : SameLead lead lead') (h' : SameLead lead' lead₁) : SameLead lead lead₁ := by
  rcases h with rfl | ⟨hbreak, hbreak'⟩
  · exact h'
  · rcases h' with rfl | ⟨-, hbreak₁⟩
    · exact .inr ⟨hbreak, hbreak'⟩
    · exact .inr ⟨hbreak, hbreak₁⟩

theorem append (h : SameLead lead lead') (text : List Char) :
    SameLead (lead ++ text) (lead' ++ text) := by
  rcases h with rfl | ⟨hbreak, hbreak'⟩
  · exact refl _
  · exact .inr ⟨by rw [hasBreak_append, hbreak, Bool.true_or],
      by rw [hasBreak_append, hbreak', Bool.true_or]⟩

end SameLead

/-- What becomes of a token when the layout of its text changes and raw literals by `rewrite`. -/
structure Entry.Relaid (rewrite : List Char → List Char) (e e' : Entry) : Prop where
  kind : e'.kind = e.kind
  text : e'.text = if e.kind = .rawStringLit then rewrite e.text else e.text
  lead : e.kind ≠ .semi → SameLead e.lead e'.lead

theorem Entry.Relaid.semi (rewrite : List Char → List Char) (lead lead' : List Char) :
    Entry.Relaid rewrite ⟨.semi, lead, []⟩ ⟨.semi, lead', []⟩ :=
  ⟨rfl, rfl, fun h => absurd rfl h⟩

theorem Entry.Relaid.trans {e e₁ e₂ : Entry} (h : Entry.Relaid rewrite e e₁)
    (h' : Entry.Relaid id e₁ e₂) : Entry.Relaid rewrite e e₂ where
  kind := h'.kind.trans h.kind
  text := by
    rw [h'.text, id_eq, ite_self]
    exact h.text
  lead hkind := (h.lead hkind).trans (h'.lead (by rwa [h.kind]))

theorem forall₂_relaid_trans {es₁ es₂ : List Entry} (h : List.Forall₂ (Entry.Relaid rewrite) es es₁)
    (h' : List.Forall₂ (Entry.Relaid id) es₁ es₂) : List.Forall₂ (Entry.Relaid rewrite) es es₂ := by
  induction h generalizing es₂ with
  | nil =>
    cases h'
    exact .nil
  | cons he _ ih =>
    cases h' with
    | cons he' hes' => exact .cons (he.trans he') (ih hes')

/-- What was skipped before some pieces only shows in the lead of their first token. -/
theorem entries_cases (open_ : Bool) (ps : List Piece) :
    (∀ lead, entries lead open_ ps = []) ∨ ∃ kind skipped text es, ∀ lead,
      entries lead open_ ps = ⟨kind, lead ++ skipped, text⟩ :: es := by
  induction ps generalizing open_ with
  | nil =>
    cases open_ with
    | true => exact .inr ⟨.semi, [], [], [], fun lead => by rw [append_nil]; rfl⟩
    | false => exact .inl fun _ => rfl
  | cons p ps ih =>
    obtain ⟨cls, text⟩ := p
    rcases cls.token_or with ⟨kind, rfl⟩ | hcls
    · refine .inr ⟨kind, [], text, entries [] kind.endsStatement ps, fun lead => ?_⟩
      rw [entries_token, append_nil]
    · by_cases hbreak : (open_ && hasBreak text) = true
      · refine .inr ⟨.semi, beforeBreak text, [],
          entries (fromBreak text) (open_ && !hasBreak text) ps, fun lead => ?_⟩
        rw [entries_trivia hcls, insertedBy, leadAfter, if_pos hbreak, if_pos hbreak]
        rfl
      · have hstep : ∀ lead, entries lead open_ (⟨cls, text⟩ :: ps) =
            entries (lead ++ text) (open_ && !hasBreak text) ps := by
          intro lead
          rw [entries_trivia hcls, insertedBy, leadAfter, if_neg hbreak, if_neg hbreak]
          rfl
        rcases ih (open_ && !hasBreak text) with hnil | ⟨kind, skipped, word, es, hcons⟩
        · exact .inl fun lead => by rw [hstep, hnil]
        · refine .inr ⟨kind, text ++ skipped, word, es, fun lead => ?_⟩
          rw [hstep, hcons, append_assoc]

/-- Other text skipped before changes nothing else. -/
theorem Lexes.relead {lead' : List Char} (h : Lexes start open_ lead m es)
    (hlead : SameLead lead lead') :
    ∃ es', Lexes start open_ lead' m es' ∧ List.Forall₂ (Entry.Relaid id) es es' := by
  obtain ⟨ps, hcut, rfl, rfl⟩ := h.exists_cut
  refine ⟨_, lexes_of_cut hcut lead' open_, ?_⟩
  have hsame : ∀ e, Entry.Relaid id e e := fun e => ⟨rfl, by simp, fun _ => .refl _⟩
  rcases entries_cases open_ ps with hnil | ⟨kind, skipped, text, es, hcons⟩
  · rw [hnil, hnil]
    exact .nil
  · rw [hcons, hcons]
    exact .cons ⟨rfl, by simp, fun _ => hlead.append skipped⟩ (forall₂_same.2 fun e _ => hsame e)

/-- Of the first token of a text, only the kind and the text are known to stay if the relation is
known of the tokens as they would stand behind a line break. -/
theorem relaid_cases {ps' : List Piece}
    (h : List.Forall₂ (Entry.Relaid rewrite) (entries lead false ps) (entries lead false ps')) :
    entries [] false ps = [] ∧ entries [] false ps' = [] ∨
      ∃ e es e' es', entries [] false ps = e :: es ∧ entries [] false ps' = e' :: es' ∧
        e'.kind = e.kind ∧ (e'.text = if e.kind = .rawStringLit then rewrite e.text else e.text) ∧
        List.Forall₂ (Entry.Relaid rewrite) es es' := by
  rcases entries_cases false ps with hnil | ⟨kind, skipped, text, es, hcons⟩
  · rcases entries_cases false ps' with hnil' | ⟨kind', skipped', text', es', hcons'⟩
    · exact .inl ⟨hnil [], hnil' []⟩
    · rw [hnil, hcons'] at h
      cases h
  · rcases entries_cases false ps' with hnil' | ⟨kind', skipped', text', es', hcons'⟩
    · rw [hcons, hnil'] at h
      cases h
    · rw [hcons, hcons'] at h
      obtain ⟨hfirst, hrest⟩ := forall₂_cons.1 h
      exact .inr ⟨_, es, _, es', hcons [], hcons' [], hfirst.kind, hfirst.text, hrest⟩

theorem relaid_insertedBy {lead' text' : List Char} (h : hasBreak text' = hasBreak text) :
    List.Forall₂ (Entry.Relaid rewrite) (insertedBy open_ lead text)
      (insertedBy open_ lead' text') := by
  rw [insertedBy, insertedBy, h]
  split
  · exact .cons (.semi ..) .nil
  · exact .nil

end Lexeme

end Stubwright
