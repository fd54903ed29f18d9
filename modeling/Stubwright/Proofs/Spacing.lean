import Stubwright.Proofs.Outline
import Stubwright.Proofs.Accounting.Spans

/-!
# The text between tokens

A text that is cut into tokens is those tokens and the text between them.  Where a statement ends,
the text between two tokens also holds the place of a semicolon that is not written.

* `punctuated_of_tokenize`: tokens are the lexemes but spacing, with semicolons inserted.
-/

namespace Stubwright

open List

open Text

variable {c : Char} {text g v : List Char} {t : Token}

/-! ## Spacing -/

/-- Blanks, line breaks and whole comments.  At the `start` of a text a byte order mark may come
first; a line comment goes up to a line break, and at the end of the text, if this is the `last`
spacing, up to there. -/
inductive Spacing (last : Bool) : (start : Bool) → List Char → Prop
  | nil {start : Bool} : Spacing last start []
  | blank {start : Bool} {c : Char} {v : List Char} (hc : c ∈ [' ', '\t', '\x0c', '\r', '\n'])
      (h : Spacing last false v) : Spacing last start (c :: v)
  | mark {v : List Char} (h : Spacing last false v) : Spacing last true ('\ufeff' :: v)
  | lineComment {start : Bool} {u v : List Char} (hu : '\n' ∉ u ∧ '\r' ∉ u)
      (hend : v.head? = some '\n' ∨ v.head? = some '\r' ∨ v = [] ∧ last = true)
      (h : Spacing last false v) : Spacing last start ('/' :: '/' :: u ++ v)
  | blockComment {start : Bool} {u v : List Char} (hu : ¬['*', '/'] <:+: u ++ ['*'])
      (h : Spacing last false v) : Spacing last start ('/' :: '*' :: u ++ '*' :: '/' :: v)

/-- The first line break of a text is at the offset `n`. -/
def FirstBreak (text : List Char) (n : Nat) : Prop :=
  ∃ u d v, text = u ++ d :: v ∧ (d = '\n' ∨ d = '\r') ∧ ('\n' ∉ u ∧ '\r' ∉ u) ∧
    n = byteSize u

namespace Lexeme

theorem isBreak_iff : isBreak c = true ↔ c = '\n' ∨ c = '\r' := by
  simp [isBreak]

theorem hasBreak_eq_false_iff {u : List Char} : hasBreak u = false ↔ '\n' ∉ u ∧ '\r' ∉ u := by
  constructor
  · intro h
    exact ⟨not_mem_of_hasBreak h rfl, not_mem_of_hasBreak h rfl⟩
  · rintro ⟨hfeed, hreturn⟩
    rw [hasBreak, any_eq_false]
    intro d hd hbreak
    rcases isBreak_iff.1 hbreak with rfl | rfl
    · exact hfeed hd
    · exact hreturn hd

theorem beforeBreak_eq_self (h : hasBreak text = false) : beforeBreak text = text :=
  takeWhile_eq_self_iff.2 (by simpa [hasBreak] using h)

theorem firstBreak_iff {n : Nat} : FirstBreak text n
    ↔ hasBreak text = true ∧ n = byteSize (beforeBreak text) := by
  constructor
  · rintro ⟨u, d, v, rfl, hd, hu, rfl⟩
    have hd := isBreak_iff.2 hd
    have hu := hasBreak_eq_false_iff.2 hu
    refine ⟨by rw [hasBreak_append, hasBreak_cons hd, Bool.or_true], ?_⟩
    rw [beforeBreak_append, hu, if_neg Bool.false_ne_true]
    simp [beforeBreak, hd]
  · rintro ⟨h, rfl⟩
    have htext := beforeBreak_append_fromBreak text
    have hdrop := head?_dropWhile_not (fun d => !isBreak d) text
    rw [← fromBreak] at hdrop
    cases hfrom : fromBreak text with
    | nil =>
      rw [← htext, hfrom, append_nil, hasBreak_beforeBreak] at h
      cases h
    | cons d v =>
      rw [hfrom] at htext hdrop
      exact ⟨beforeBreak text, d, v, htext.symm, isBreak_iff.1 (by simpa using hdrop),
        hasBreak_eq_false_iff.1 (hasBreak_beforeBreak text), rfl⟩

/-- A comment up to its end mark has the mark nowhere before. -/
theorem comment_split {u : List Char} (h : blockCommentEnd? u = some u.length) :
    ∃ w, u = w ++ ['*', '/'] ∧ ¬['*', '/'] <:+: w ++ ['*'] := by
  induction u with
  | nil => cases h
  | cons c v ih =>
    rcases comment_cases h with hmark | ⟨c', v', heq, hmark, hv⟩
    · exact ⟨[], hmark, by decide⟩
    · obtain ⟨rfl, rfl⟩ := List.cons.inj heq
      obtain ⟨w, rfl, hw⟩ := ih hv
      refine ⟨c :: w, rfl, ?_⟩
      rw [cons_append, infix_cons_iff, not_or]
      refine ⟨?_, hw⟩
      rw [cons_prefix_cons]
      rintro ⟨rfl, hprefix⟩
      refine hmark ⟨rfl, ?_⟩
      cases w with
      | nil => exact absurd hprefix (by decide)
      | cons d w =>
        obtain ⟨rfl, -⟩ := cons_prefix_cons.1 hprefix
        rfl

/-- What is skipped before a text that does not start with a line break is spacing. -/
theorem spacing_of_gap {start : Bool} {k : List Char} (h : Gap k start g)
    (hk : ∀ d ∈ k.head?, isBreak d = false) : Spacing k.isEmpty start g := by
  induction h with
  | nil => exact .nil
  | @cons start u v hskip _ ih =>
    cases hskip with
    | @blank c _ hc =>
      have hc : c = ' ' ∨ c = '\t' ∨ c = '\x0c' := by simpa [isSpace, or_assoc] using hc
      exact .blank (by rcases hc with rfl | rfl | rfl <;> simp) ih
    | newline hc => exact .blank (by rcases isBreak_iff.1 hc with rfl | rfl <;> simp) ih
    | mark hstart =>
      subst hstart
      exact .mark ih
    | @lineComment u _ hu hend =>
      refine .lineComment (hasBreak_eq_false_iff.1 hu) ?_ ih
      cases v with
      | cons d v =>
        rcases isBreak_iff.1 hend with rfl | rfl
        · exact .inl rfl
        · exact .inr (.inl rfl)
      | nil =>
        cases k with
        | nil => exact .inr (.inr ⟨rfl, rfl⟩)
        | cons d k =>
          have hd : isBreak d = true := hend
          rw [hk d rfl] at hd
          cases hd
    | blockComment hu =>
      obtain ⟨w, rfl, hw⟩ := comment_split hu
      have hspacing := @Spacing.blockComment _ start _ _ hw ih
      simpa using hspacing

end Lexeme

/-! ## Tokens that end a statement -/

/-- The kinds of names and literals. -/
def TokenKind.classes : List TokenKind :=
  [ident, intLit, floatLit, imagLit, charLit, stringLit, rawStringLit]

/-- The spellings of the keywords, operators and brackets that end a statement. -/
def closers : List String :=
  ["break", "continue", "fallthrough", "return", "++", "--", ")", "]", "\x7d"]

namespace Token

/-- Whether a token is written in the text. -/
def isWritten (t : Token) : Bool :=
  !t.span.isEmpty

/-- A line break behind a name, a literal or one of some keywords, operators and brackets ends a
statement. -/
def Closes (t : Token) : Prop :=
  t.kind ∈ TokenKind.classes ∨ t.text ∈ closers

theorem isWritten_iff : t.isWritten = true ↔ t.start < t.stop := by
  have hle := t.start_le_stop
  simp only [isWritten, span, Span.isEmpty, Bool.not_eq_true', beq_eq_false_iff_ne]
  omega

theorem stop_of_text (h : t.text.toList = c :: v) : t.stop = t.start + byteSize (c :: v) := by
  rw [stop, ← byteSize_toList, h]

theorem isWritten_of_text (h : t.text.toList = c :: v) : t.isWritten = true := by
  have hpos := Lexeme.byteSize_cons_ne_zero 0 c v
  rw [isWritten_iff, stop_of_text h]
  omega

theorem isWritten_inserted (lead : List Char) (pos : Nat) :
    (Token.inserted lead pos).isWritten = false := by
  simp [isWritten, span, stop, inserted, Span.isEmpty]

end Token

namespace Lexeme

theorem mem_keywords_of_wordKind (h : wordKind text ≠ .ident) :
    (String.ofList text, wordKind text) ∈ TokenKind.keywords := by
  rw [wordKind] at h ⊢
  cases hlookup : TokenKind.keywords.lookup (String.ofList text) with
  | none => rw [hlookup] at h; exact absurd rfl h
  | some kind =>
    obtain ⟨as, bs, hkeywords, -⟩ := lookup_eq_some_iff.1 hlookup
    rw [hkeywords]
    simp

/-- A token that is no name and no literal is written as a keyword or an operator. -/
theorem spelled_of_scan {z : List Char} (htext : t.text.toList = c :: v)
    (hscan : scan c (v ++ z) = .ok (.token t.kind, v.length)) :
    t.kind ∈ TokenKind.classes ∨ (t.text, t.kind) ∈ TokenKind.keywords ++ TokenKind.operators := by
  rcases tokenAt_cases (tokenAt_of_scan hscan).2.2 with ⟨-, hword, hlen⟩ | hnumber | ⟨hkind, -⟩ |
    ⟨hkind, -⟩ | ⟨e, he, hkind, -⟩
  · obtain ⟨hall, hstop⟩ := length_takeWhile_append.1 hlen.symm
    have hrun := takeWhile_append_of_all hall hstop
    rw [hrun, ← htext] at hword
    by_cases hident : t.kind = .ident
    · exact .inl (by simp [TokenKind.classes, hident])
    · have hmem := mem_keywords_of_wordKind (hword ▸ hident)
      rw [← hword, String.ofList_toList] at hmem
      exact .inr (mem_append_left _ hmem)
  · have hnumbers : ∀ kind ∈ [TokenKind.intLit, .floatLit, .imagLit, .charLit],
        kind ∈ TokenKind.classes := by decide
    exact .inl (hnumbers _ hnumber)
  · exact .inl (by simp [TokenKind.classes, hkind])
  · exact .inl (by simp [TokenKind.classes, hkind])
  · rw [← hkind] at hscan ⊢
    have hspelling : t.text = e.1 := String.toList_inj.1 (htext.trans (text_of_operator he hscan))
    rw [hspelling]
    exact .inr (mem_append_right _ he)

/-- The kinds that end a statement are those of the tokens that do. -/
theorem endsStatement_iff {z : List Char} (htext : t.text.toList = c :: v)
    (hscan : scan c (v ++ z) = .ok (.token t.kind, v.length)) :
    t.kind.endsStatement = true ↔ t.Closes := by
  have hclasses : ∀ kind ∈ TokenKind.classes, kind.endsStatement = true := by decide
  have hspellings : ∀ e ∈ TokenKind.keywords ++ TokenKind.operators,
      e.2 ∉ TokenKind.classes ∧ (e.2.endsStatement = true ↔ e.1 ∈ closers) := by decide
  rcases spelled_of_scan htext hscan with hclass | hspelled
  · exact iff_of_true (hclasses _ hclass) (.inl hclass)
  · obtain ⟨hclass, hiff⟩ := hspellings _ hspelled
    exact hiff.trans ⟨.inr, fun h => h.resolve_left hclass⟩

end Lexeme

/-! ## Tokens and the spacing between them -/

/-- The semicolon that spacing puts behind a token, given whether the token ends a statement and
whether the text ends with the spacing. -/
def insertion (open_ : Bool) (pos : Nat) (lead g : List Char) (last : Bool) : List Token :=
  if open_ && (Lexeme.hasBreak g || last) then
    [Token.inserted (lead ++ Lexeme.beforeBreak g) (pos + byteSize (Lexeme.beforeBreak g))]
  else []

/-- A text is empty or starts with a token at the offset `pos`, and is these tokens with spacing
behind each of them. -/
inductive Spread : (pos : Nat) → List Char → List Token → Prop
  | nil {pos : Nat} : Spread pos [] []
  | cons {t : Token} {c : Char} {v g z : List Char} {ts : List Token}
      (htext : t.text.toList = c :: v)
      (hscan : Lexeme.scan c (v ++ (g ++ z)) = .ok (.token t.kind, v.length))
      (hgap : Spacing z.isEmpty false g) (hrest : Spread (t.stop + byteSize g) z ts) :
      Spread t.start (c :: v ++ (g ++ z))
        (t :: (insertion t.kind.endsStatement t.stop [] g z.isEmpty ++ ts))

namespace Lexeme

theorem insertion_token (open_ : Bool) (pos : Nat) (lead : List Char) :
    insertion open_ pos lead [] false = [] := by
  simp [insertion, hasBreak]

/-- Skipped text in front of spacing. -/
theorem insertion_append (open_ : Bool) (pos : Nat) (lead u g : List Char) (last : Bool) :
    insertion open_ pos lead (u ++ g) last
      = if open_ && hasBreak u then
          [Token.inserted (lead ++ beforeBreak u) (pos + byteSize (beforeBreak u))]
        else insertion open_ (pos + byteSize u) (lead ++ u) g last := by
  simp only [insertion, hasBreak_append, beforeBreak_append]
  cases open_ <;> cases hasBreak u <;> simp [byteSize_append, Nat.add_assoc]

end Lexeme

namespace Spread

variable {pos : Nat} {z : List Char} {ts : List Token}

theorem not_isBreak (h : Spread pos z ts) : ∀ d ∈ z.head?, Lexeme.isBreak d = false := by
  cases h with
  | nil => simp
  | cons _ hscan =>
    obtain ⟨-, hbreak, -⟩ := Lexeme.isInk_iff.1 (Lexeme.tokenAt_of_scan hscan).1
    rintro d ⟨rfl⟩
    exact hbreak

end Spread

namespace Lexeme

/-- A text that is cut into pieces is some spacing and then its tokens, spread. -/
theorem exists_spread {start : Bool} {ps : List Piece} (h : Cut start text ps) (pos : Nat)
    (lead : List Char) (open_ : Bool) :
    ∃ g z ts, text = g ++ z ∧ Gap z start g ∧ Spread (pos + byteSize g) z ts ∧
      tokensOf pos lead open_ ps = insertion open_ pos lead g z.isEmpty ++ ts := by
  induction h generalizing pos lead open_ with
  | nil =>
    refine ⟨[], [], [], rfl, .nil, .nil, ?_⟩
    cases open_ <;> simp [tokensOf, insertion, hasBreak, beforeBreak]
  | @cons start cls c v z ps hscan hmark hrest ih =>
    rcases cls.token_or with ⟨kind, rfl⟩ | hcls
    · let t : Token := ⟨kind, String.ofList lead, String.ofList (c :: v), pos⟩
      have htext : t.text.toList = c :: v := String.toList_ofList
      have hstop : t.stop = pos + byteSize (c :: v) := Token.stop_of_text htext
      obtain ⟨g, z, ts, rfl, hgap, hspread, htokens⟩ := ih t.stop [] kind.endsStatement
      have hspacing := spacing_of_gap hgap hspread.not_isBreak
      refine ⟨[], c :: v ++ (g ++ z), _, rfl, .nil, .cons htext hscan hspacing hspread, ?_⟩
      have hnone : insertion open_ pos lead [] (c :: v ++ (g ++ z)).isEmpty = [] :=
        insertion_token open_ pos lead
      rw [tokensOf_token, ← hstop, htokens, hnone]
      rfl
    · have hpiece := gap_of_scan hscan hcls hmark
      -- The spacing behind the piece, whatever the piece leaves open.
      have hjoin : ∀ lead' open', ∃ g z' ts, c :: v ++ z = c :: v ++ g ++ z' ∧
          Gap z' start (c :: v ++ g) ∧ Spread (pos + byteSize (c :: v ++ g)) z' ts ∧
          tokensOf (pos + byteSize (c :: v)) lead' open' ps
            = insertion open' (pos + byteSize (c :: v)) lead' g z'.isEmpty ++ ts := by
        intro lead' open'
        obtain ⟨g, z, ts, rfl, hgap, hspread, htokens⟩ :=
          ih (pos + byteSize (c :: v)) lead' open'
        refine ⟨g, z, ts, (append_assoc ..).symm, hpiece.append hgap, ?_, htokens⟩
        rwa [byteSize_append, ← Nat.add_assoc]
      rw [tokensOf_trivia hcls]
      split
      next hopen =>
        obtain ⟨g, z', ts, htext, hgap, hspread, htokens⟩ := hjoin (fromBreak (c :: v)) false
        refine ⟨_, z', ts, htext, hgap, hspread, ?_⟩
        rw [insertion_append, if_pos hopen, htokens]
        rfl
      next hopen =>
        obtain ⟨g, z', ts, htext, hgap, hspread, htokens⟩ := hjoin (lead ++ c :: v) open_
        refine ⟨_, z', ts, htext, hgap, hspread, ?_⟩
        rw [insertion_append, if_neg hopen, htokens]

end Lexeme

/-! ## Places in the text -/

/-- Where the next token that is written starts. -/
def nextStart? (ts : List Token) : Option Nat :=
  (ts.find? Token.isWritten).map Token.start

theorem nextStart?_insertion (open_ : Bool) (pos : Nat) (lead g : List Char) (last : Bool)
    (ts : List Token) : nextStart? (insertion open_ pos lead g last ++ ts) = nextStart? ts := by
  rw [insertion]
  split
  · rw [nextStart?, cons_append, nil_append, find?_cons_of_neg (by
      simp [Token.isWritten_inserted]), ← nextStart?]
  · rfl

/-- A token behind another one is the semicolon inserted there, or it comes after that. -/
theorem insertion_append_cases {open_ last : Bool} {pos : Nat} {lead : List Char}
    {ts as bs : List Token} (h : insertion open_ pos lead g last ++ ts = as ++ t :: bs) :
    (as = [] ∧ t.isWritten = false ∧ t.kind = .semi) ∨
      ∃ as', ts = as' ++ t :: bs ∧ as' <:+ as := by
  rw [insertion] at h
  split at h
  · cases as with
    | nil =>
      obtain ⟨rfl, -⟩ := List.cons.inj h
      exact .inl ⟨rfl, Token.isWritten_inserted _ _, rfl⟩
    | cons s as =>
      obtain ⟨-, rfl⟩ := List.cons.inj h
      exact .inr ⟨as, rfl, suffix_cons s as⟩
  · exact .inr ⟨as, h, suffix_rfl⟩

namespace Spread

variable {pos : Nat} {z : List Char} {t : Token} {ts as bs : List Token}

theorem head_cases (h : Spread pos z ts) : (z = [] ∧ ts = []) ∨
    ∃ t us, ts = t :: us ∧ t.isWritten = true ∧ t.start = pos ∧ z.isEmpty = false := by
  cases h with
  | nil => exact .inl ⟨rfl, rfl⟩
  | cons htext => exact .inr ⟨_, _, rfl, Token.isWritten_of_text htext, rfl, rfl⟩

theorem nextStart?_eq (h : Spread pos z ts) :
    nextStart? ts = if z.isEmpty then none else some pos := by
  rcases h.head_cases with ⟨rfl, rfl⟩ | ⟨t, us, rfl, hwritten, rfl, hz⟩
  · rfl
  · rw [hz, nextStart?, find?_cons_of_pos hwritten]
    rfl

theorem nextStart?_eq_none_iff (h : Spread pos z ts) : nextStart? ts = none ↔ z = [] := by
  rw [h.nextStart?_eq]
  cases z <;> simp

theorem isNone_nextStart? (h : Spread pos z ts) : (nextStart? ts).isNone = z.isEmpty := by
  rw [h.nextStart?_eq]
  cases z <;> rfl

theorem getD_nextStart? (h : Spread pos z ts) :
    (nextStart? ts).getD (pos + byteSize z) = pos := by
  rw [h.nextStart?_eq]
  cases z <;> rfl

/-- What stands before and behind a written token, if the text `b` stands before the tokens. -/
theorem split (h : Spread pos z ts) {b : List Char} (hb : byteSize b = pos)
    (hts : ts = as ++ t :: bs) (ht : t.isWritten = true) :
    ∃ a c v g y us, b ++ z = a ++ c :: v ++ (g ++ y) ∧ byteSize a = t.start ∧
      t.text.toList = c :: v ∧ Lexeme.scan c (v ++ (g ++ y)) = .ok (.token t.kind, v.length) ∧
      Spacing y.isEmpty false g ∧ Spread (t.stop + byteSize g) y us ∧
      bs = insertion t.kind.endsStatement t.stop [] g y.isEmpty ++ us := by
  induction h generalizing as b with
  | nil => simp at hts
  | @cons u c v g z ts htext hscan hgap hrest ih =>
    cases as with
    | nil =>
      obtain ⟨rfl, rfl⟩ := List.cons.inj hts
      exact ⟨b, c, v, g, z, ts, by simp, hb, htext, hscan, hgap, hrest, rfl⟩
    | cons s as =>
      rcases insertion_append_cases (List.cons.inj hts).2 with ⟨-, hunwritten, -⟩ | ⟨as', rfl, -⟩
      · rw [ht] at hunwritten
        cases hunwritten
      · have hbehind : byteSize (b ++ c :: v ++ g) = u.stop + byteSize g := by
          rw [byteSize_append, byteSize_append, hb, Token.stop_of_text htext]
        obtain ⟨a, d, w, g', y, us, hsplit, hfound⟩ := ih hbehind rfl
        exact ⟨a, d, w, g', y, us, by rw [← hsplit]; simp, hfound⟩

/-- What is not written is a semicolon right behind a written token. -/
theorem of_not_isWritten (h : Spread pos z ts) (hts : ts = as ++ t :: bs)
    (ht : t.isWritten = false) : t.kind = .semi ∧ ∃ u ∈ as.getLast?, u.isWritten = true := by
  induction h generalizing as with
  | nil => simp at hts
  | @cons u c v g z ts htext hscan hgap hrest ih =>
    have hu := Token.isWritten_of_text htext
    cases as with
    | nil =>
      obtain ⟨rfl, -⟩ := List.cons.inj hts
      rw [ht] at hu
      cases hu
    | cons s as =>
      obtain ⟨rfl, htail⟩ := List.cons.inj hts
      rcases insertion_append_cases htail with ⟨rfl, -, hsemi⟩ | ⟨as', rfl, p, rfl⟩
      · exact ⟨hsemi, u, rfl, hu⟩
      · obtain ⟨hsemi, w, hw, hwritten⟩ := ih rfl
        refine ⟨hsemi, w, ?_, hwritten⟩
        rw [← cons_append, getLast?_append, hw]
        rfl

theorem not_emptyAt (h : Spread pos z ts) (n : Nat) :
    ¬∃ s ∈ ts.head?, s.span = Span.emptyAt n := by
  rintro ⟨s, hs, hspan⟩
  rcases h.head_cases with ⟨-, rfl⟩ | ⟨t, us, rfl, hwritten, -⟩
  · cases hs
  · obtain rfl := Option.some.inj hs
    rw [Token.isWritten, hspan] at hwritten
    simp [Span.isEmpty, Span.emptyAt] at hwritten

/-- Where a semicolon is inserted behind a token. -/
theorem exists_insertion_iff {k : List Char} (h : Spread pos z ts) (htext : t.text.toList = c :: v)
    (hscan : Lexeme.scan c (v ++ k) = .ok (.token t.kind, v.length)) (n : Nat) :
    (∃ s ∈ (insertion t.kind.endsStatement t.stop [] g z.isEmpty ++ ts).head?,
        s.span = Span.emptyAt n) ↔
      t.Closes ∧ ((∃ m, FirstBreak g m ∧ n = t.stop + m) ∨
        z = [] ∧ (∀ m, ¬FirstBreak g m) ∧ n = t.stop + byteSize g) := by
  have hspan : ∀ lead pos, (Token.inserted lead pos).span = Span.emptyAt n ↔ n = pos := by
    intro lead pos
    simp [Token.span, Token.stop, Token.inserted, Span.emptyAt, eq_comm]
  simp only [← Lexeme.endsStatement_iff htext hscan, Lexeme.firstBreak_iff]
  cases hends : t.kind.endsStatement with
  | false => simpa [insertion] using h.not_emptyAt n
  | true =>
    cases hbreak : Lexeme.hasBreak g with
    | true => simp [insertion, hbreak, hspan]
    | false =>
      cases z with
      | nil => simp [insertion, hbreak, hspan, Lexeme.beforeBreak_eq_self hbreak]
      | cons d z => simpa [insertion, hbreak] using h.not_emptyAt n

end Spread

/-! ## Tokens and inserted semicolons of a text -/

/-- Tokens lie in a text, and semicolons are inserted where statements end. -/
structure Punctuated (text : List Char) (ts : List Token) : Prop where
  /-- A written token is the lexeme at its place in the text. -/
  stands : ∀ t ∈ ts, t.isWritten = true →
    t.span.IsIn text ∧ t.span.slice? text = some t.text.toList ∧
      ∃ a c v z, text = a ++ c :: v ++ z ∧ byteSize a = t.start ∧ t.text.toList = c :: v ∧
        Lexeme.scan c (v ++ z) = .ok (.token t.kind, v.length)
  ordered : (ts.filter Token.isWritten).Pairwise fun t u => t.stop ≤ u.start ∧ t.start < u.start
  /-- Up to the first written token there is spacing. -/
  before : ∃ g, (⟨0, (nextStart? ts).getD (byteSize text)⟩ : Span).slice? text = some g ∧
    Spacing (nextStart? ts).isNone true g
  /-- Behind a written token there is spacing.  A semicolon is inserted there at the first line
  break, or at the end of the text, if the token ends a statement, and only then. -/
  behind : ∀ as t bs, ts = as ++ t :: bs → t.isWritten = true →
    ∃ g, (⟨t.stop, (nextStart? bs).getD (byteSize text)⟩ : Span).slice? text = some g ∧
      Spacing (nextStart? bs).isNone false g ∧
      ∀ pos, (∃ s ∈ bs.head?, s.span = Span.emptyAt pos) ↔ t.Closes ∧
        ((∃ n, FirstBreak g n ∧ pos = t.stop + n) ∨
          nextStart? bs = none ∧ (∀ n, ¬FirstBreak g n) ∧ pos = byteSize text)
  /-- Nothing but such a semicolon is not written. -/
  inserted : ∀ as s bs, ts = as ++ s :: bs → s.isWritten = false →
    s.kind = .semi ∧ ∃ t ∈ as.getLast?, t.isWritten = true

/-- The tokens of a text are the lexemes in it that are no spacing, and a semicolon is inserted
where a line or the text ends behind a token that ends a statement. -/
theorem punctuated_of_tokenize {text : List Char} {ts : List Token} (h : tokenize text = .ok ts) :
    Punctuated text ts := by
  obtain ⟨ps, hcut, hts⟩ := tokenize_eq_ok_iff.1 h
  obtain ⟨g₀, z, us, rfl, hgap, hspread, htokens⟩ := Lexeme.exists_spread hcut 0 [] false
  obtain rfl : ts = us := hts.trans htokens
  have hzero : byteSize g₀ = 0 + byteSize g₀ := (Nat.zero_add _).symm
  refine ⟨?_, (tiled_of_tokenize h).pairwise.filter _, ?_, ?_,
    fun as s bs hts hs => hspread.of_not_isWritten hts hs⟩
  · intro t ht hwritten
    obtain ⟨as, bs, hts⟩ := append_of_mem ht
    obtain ⟨a, c, v, g, y, us, htext, hstart, hv, hscan, -⟩ := hspread.split hzero hts hwritten
    have hspan : t.span = ⟨byteSize a, byteSize a + byteSize (c :: v)⟩ := by
      rw [Token.span, Token.stop_of_text hv, hstart]
    rw [hspan, hv]
    exact ⟨Span.isIn_of_eq htext, Span.slice?_of_eq htext,
      a, c, v, g ++ y, htext, hstart, rfl, hscan⟩
  · have hsize : byteSize (g₀ ++ z) = 0 + byteSize g₀ + byteSize z := by
      rw [byteSize_append, ← hzero]
    rw [hsize, hspread.getD_nextStart?, hspread.isNone_nextStart?]
    exact ⟨g₀, Span.slice?_of_eq (show g₀ ++ z = [] ++ g₀ ++ z from rfl),
      Lexeme.spacing_of_gap hgap hspread.not_isBreak⟩
  · intro as t bs hts hwritten
    obtain ⟨a, c, v, g, y, us, htext, hstart, hv, hscan, hspacing, hrest, rfl⟩ :=
      hspread.split hzero hts hwritten
    have hbehind : byteSize (a ++ c :: v) = t.stop := by
      rw [byteSize_append, hstart, Token.stop_of_text hv]
    have hplace : g₀ ++ z = a ++ c :: v ++ g ++ y :=
      htext.trans (append_assoc (a ++ c :: v) g y).symm
    have hsize : byteSize (g₀ ++ z) = t.stop + byteSize g + byteSize y := by
      rw [hplace, byteSize_append, byteSize_append, hbehind]
    rw [nextStart?_insertion, hsize, hrest.getD_nextStart?, hrest.isNone_nextStart?, ← hbehind]
    refine ⟨g, Span.slice?_of_eq hplace, hspacing, fun n => ?_⟩
    rw [hbehind, hrest.exists_insertion_iff hv hscan, hrest.nextStart?_eq_none_iff]
    refine and_congr_right fun _ => or_congr_right (and_congr_right fun hlast => ?_)
    rw [hlast]
    rfl

/-- Semicolons at a line break in a comment and at the end of the text, behind a comment. -/
theorem punctuated_of_tokenize_comments :
    ∃ ts, tokenize "\ufeff// a\rx /* b\n*/ + \x60\n\x60// c".toList = .ok ts ∧
      ts.map (fun t => (t.text, t.start))
        = [("x", 8), ("", 14), ("+", 18), ("\x60\n\x60", 20), ("", 27)] ∧
      Punctuated "\ufeff// a\rx /* b\n*/ + \x60\n\x60// c".toList ts := by
  have h : tokenize "\ufeff// a\rx /* b\n*/ + \x60\n\x60// c".toList
      = .ok [⟨.ident, "\ufeff// a\r", "x", 8⟩, Token.inserted " /* b".toList 14,
        ⟨.plus, "\n*/ ", "+", 18⟩, ⟨.rawStringLit, " ", "\x60\n\x60", 20⟩,
        Token.inserted "// c".toList 27] := by
    cbv
  exact ⟨_, h, rfl, punctuated_of_tokenize h⟩

end Stubwright
