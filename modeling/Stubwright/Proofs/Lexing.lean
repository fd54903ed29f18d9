import Stubwright.Proofs.Scan
import Stubwright.TypeExpr.Parse

/-!
# Texts and their tokens

Cutting a text into tokens goes from left to right and carries little along: the offset, the
characters skipped since the last token, and whether a line break would end the statement.

* `tokensFrom_cons`: how the tokens of a text begin.
* `Lexed.isLength`: tokens before a closing bracket are written as a length.
-/

namespace Stubwright

open List

variable {c : Char} {u k cs lead : List Char} {kind : TokenKind} {ts : List Token} {n pos : Nat}
  {open_ : Bool} {t : Token} {kinds : List TokenKind} {rest : List Token} {close : Token}
  {depth : Nat}

namespace Lexeme

/-! ## One lexeme -/

/-- A token at the start of a text. -/
theorem tokensFrom_token (pos : Nat) (lead : List Char) (open_ : Bool)
    (h : scan c (u ++ k) = .ok (.token kind, u.length)) :
    tokensFrom pos lead open_ (c :: u ++ k)
      = (tokensFrom (pos + Text.byteSize (c :: u)) [] kind.endsStatement k).map
          (⟨kind, String.ofList lead, String.ofList (c :: u), pos⟩ :: ·) := by
  rw [cons_append, tokensFrom, h]
  simp only [take_left, drop_left]
  rcases tokensFrom (pos + Text.byteSize (c :: u)) [] kind.endsStatement k with e | ts <;> rfl

/-- Blanks are skipped together. -/
theorem tokensFrom_blanks (pos : Nat) (lead : List Char) (open_ : Bool) (k : List Char)
    (hc : isSpace c = true) :
    tokensFrom pos lead open_ (c :: k)
      = tokensFrom (pos + Text.byteSize (c :: k.takeWhile isSpace))
          (lead ++ c :: k.takeWhile isSpace) open_ (k.dropWhile isSpace) := by
  have htake : k.take (k.takeWhile isSpace).length = k.takeWhile isSpace :=
    prefix_iff_eq_take.1 (List.takeWhile_prefix _) |>.symm
  have hdrop : k.drop (k.takeWhile isSpace).length = k.dropWhile isSpace := by
    conv => lhs; arg 2; rw [← takeWhile_append_dropWhile (p := isSpace) (l := k)]
    exact drop_left
  rw [tokensFrom, scan_space hc]
  simp only [htake, hdrop]

/-- A blank is skipped. -/
theorem tokensFrom_blank (pos : Nat) (lead : List Char) (open_ : Bool) (k : List Char)
    (hc : isSpace c = true) :
    tokensFrom pos lead open_ (c :: k)
      = tokensFrom (pos + c.utf8Size) (lead ++ [c]) open_ k := by
  rw [tokensFrom_blanks pos lead open_ k hc]
  cases k with
  | nil => simp
  | cons d k =>
    by_cases hd : isSpace d = true
    · rw [tokensFrom_blanks _ _ open_ k hd]
      simp [hd, Nat.add_assoc]
    · simp [hd]

/-- A line break where the statement can go on is skipped. -/
theorem tokensFrom_newline_false (pos : Nat) (lead : List Char) (k : List Char) :
    tokensFrom pos lead false ('\n' :: k) = tokensFrom (pos + 1) (lead ++ ['\n']) false k := by
  rw [tokensFrom, scan_break rfl]
  rfl

/-- A line break where the statement can end gives a semicolon. -/
theorem tokensFrom_newline_true (pos : Nat) (lead : List Char) (k : List Char) :
    tokensFrom pos lead true ('\n' :: k)
      = (tokensFrom (pos + 1) ['\n'] false k).map (Token.inserted lead pos :: ·) := by
  rw [tokensFrom, scan_break rfl]
  change (do
    let rest ← tokensFrom (pos + 1) ['\n'] false k
    return Token.inserted lead pos :: rest) = _
  rcases tokensFrom (pos + 1) ['\n'] false k with e | ts <;> rfl

end Lexeme

/-! ## Forms of tokens -/

/-- A form that consecutive tokens may have. -/
abbrev Form := List Token → Prop

namespace Form

/-- No token. -/
def nothing : Form := fun ts => ts = []

def one (kind : TokenKind) : Form := fun ts => ∃ t, ts = [t] ∧ t.kind = kind

/-- One token of a kind with a given text. -/
def text (kind : TokenKind) (text : String) : Form := fun ts =>
  ∃ t, ts = [t] ∧ t.kind = kind ∧ t.text = text

/-- An identifier. -/
abbrev word (name : String) : Form := Form.text .ident name

theorem one_of_text {s : String} (h : Form.text kind s ts) : Form.one kind ts := by
  obtain ⟨t, hts, hkind, -⟩ := h
  exact ⟨t, hts, hkind⟩

def seq (F G : Form) : Form := fun ts => ∃ as bs, F as ∧ G bs ∧ ts = as ++ bs

end Form

/-! ## Pieces of text -/

/-- Wherever the text `s` stands before `k`, it gives tokens of the form `F`.  `before` and `after`
say whether a line break would end the statement there. -/
def Emits (s k : List Char) (before after : Bool) (F : Form) : Prop :=
  ∀ pos lead, ∃ ts pos' lead', F ts ∧ Lexeme.tokensFrom pos lead before (s ++ k)
    = (Lexeme.tokensFrom pos' lead' after k).map (ts ++ ·)

namespace Emits

open Lexeme

variable {s s' k : List Char} {b m a : Bool} {F G : Form}

theorem mono (h : Emits s k b a F) (hFG : ∀ ts, F ts → G ts) : Emits s k b a G := by
  intro pos lead
  obtain ⟨ts, pos', lead', hF, heq⟩ := h pos lead
  exact ⟨ts, pos', lead', hFG ts hF, heq⟩

/-- Two pieces, one after the other. -/
theorem append (h : Emits s (s' ++ k) b m F) (h' : Emits s' k m a G) :
    Emits (s ++ s') k b a (F.seq G) := by
  intro pos lead
  obtain ⟨ts, pos₁, lead₁, hF, heq⟩ := h pos lead
  obtain ⟨ts', pos₂, lead₂, hG, heq'⟩ := h' pos₁ lead₁
  refine ⟨ts ++ ts', pos₂, lead₂, ⟨ts, ts', hF, hG, rfl⟩, ?_⟩
  rw [append_assoc, heq, heq']
  rcases tokensFrom pos₂ lead₂ a k with e | rest
  · rfl
  · simp [Except.map]

/-- A piece without tokens before another. -/
theorem skip (h : Emits s (s' ++ k) b m Form.nothing) (h' : Emits s' k m a G) :
    Emits (s ++ s') k b a G := by
  refine (h.append h').mono ?_
  rintro ts ⟨as, bs, rfl, hG, rfl⟩
  exact hG

/-- A piece without tokens behind another. -/
theorem skipRight (h : Emits s (s' ++ k) b m F) (h' : Emits s' k m a Form.nothing) :
    Emits (s ++ s') k b a F := by
  refine (h.append h').mono ?_
  rintro ts ⟨as, bs, hF, rfl, rfl⟩
  rwa [append_nil]

theorem nil : Emits [] k b b Form.nothing := by
  intro pos lead
  refine ⟨[], pos, lead, rfl, ?_⟩
  rcases h : tokensFrom pos lead b ([] ++ k) with e | ts
  · rw [nil_append] at h; rw [h]; rfl
  · rw [nil_append] at h; rw [h]; rfl

theorem blanks (hs : s.all isSpace = true) : Emits s k b b Form.nothing := by
  induction s with
  | nil => exact nil
  | cons c s ih =>
    simp only [all_cons, Bool.and_eq_true] at hs
    intro pos lead
    obtain ⟨ts, pos', lead', hF, heq⟩ := ih hs.2 (pos + c.utf8Size) (lead ++ [c])
    refine ⟨ts, pos', lead', hF, ?_⟩
    rw [cons_append, tokensFrom_blank pos lead b _ hs.1, heq]

/-- A line break that ends the statement. -/
theorem lineEnd : Emits ['\n'] k true false (Form.one .semi) := by
  intro pos lead
  refine ⟨[Token.inserted lead pos], pos + 1, ['\n'], ⟨_, rfl, rfl⟩, ?_⟩
  rw [cons_append, nil_append, tokensFrom_newline_true]
  rfl

/-- A line break within a statement. -/
theorem lineGoesOn : Emits ['\n'] k false false Form.nothing := by
  intro pos lead
  refine ⟨[], pos + 1, lead ++ ['\n'], rfl, ?_⟩
  rw [cons_append, nil_append, tokensFrom_newline_false]
  rcases tokensFrom (pos + 1) (lead ++ ['\n']) false k with e | ts <;> rfl

/-- A token. -/
theorem token {text : String} (htext : text.toList = c :: u)
    (h : scan c (u ++ k) = .ok (.token kind, u.length)) :
    Emits text.toList k b kind.endsStatement (Form.text kind text) := by
  intro pos lead
  refine ⟨[⟨kind, String.ofList lead, text, pos⟩], pos + Text.byteSize (c :: u), [],
    ⟨_, rfl, rfl, rfl⟩, ?_⟩
  rw [htext, tokensFrom_token pos lead b h, ← htext, String.ofList_toList]
  rfl

end Emits

/-! ## Words and marks -/

/-- Whether a text is an identifier: it starts and goes on as one, and it is no keyword. -/
def isIdentifier (text : String) : Bool :=
  match text.toList with
  | [] => false
  | c :: cs => Lexeme.startsIdent c && cs.all Lexeme.continuesIdent &&
      Lexeme.wordKind (c :: cs) == .ident

/-- Whether a word ends where a text begins. -/
def endsWord (k : List Char) : Bool :=
  !k.head?.any Lexeme.continuesIdent

namespace Lexeme

/-- A word is read up to where it ends. -/
theorem scan_word (hc : startsIdent c = true) (hu : u.all continuesIdent = true)
    (hk : endsWord k = true) : scan c (u ++ k) = .ok (.token (wordKind (c :: u)), u.length) := by
  have hne : ∀ d, startsIdent d = false → c ≠ d := by
    rintro d hd rfl
    rw [hc] at hd
    cases hd
  have hother : [' ', '\t', '\x0c', '\n', '\x0d', '﻿', '/'].all (!startsIdent ·) = true := by
    decide +kernel
  have hblank : ∀ d ∈ [' ', '\t', '\x0c', '\n', '\x0d', '﻿', '/'], startsIdent d = false := by
    intro d hd
    simpa using all_eq_true.1 hother d hd
  have hink : isInk c = true := by
    have : ∀ d ∈ [' ', '\t', '\x0c', '\n', '\x0d', '﻿', '/'], c ≠ d :=
      fun d hd => hne d (hblank d hd)
    simp only [forall_mem_cons] at this
    simp [isInk, isSpace, isBreak, this]
  have hcomment : startsComment c (u ++ k) = false := by
    simp [startsComment, hne '/' (hblank '/' (by simp))]
  have hstop : k.head?.any continuesIdent = false := by simpa [endsWord] using hk
  rw [scan_eq_tokenAt hink hcomment, tokenAt, if_pos hc, takeWhile_append_of_all hu hstop]
  rfl

theorem scan_string (h : quotedEnd? '\x22' cs = some n) :
    scan '\x22' cs = .ok (.token .stringLit, n) := by
  have hword : startsIdent '\x22' = false := by decide
  rw [scan_eq_tokenAt rfl rfl, tokenAt, hword, h]
  rfl

theorem scan_raw (h : rawEnd? cs = some n) : scan '\x60' cs = .ok (.token .rawStringLit, n) := by
  have hword : startsIdent '\x60' = false := by decide
  rw [scan_eq_tokenAt rfl rfl, tokenAt, hword, h]
  rfl

theorem keyword_classes : ∀ e ∈ TokenKind.keywords,
    e.1.toList.head?.any startsIdent = true ∧ e.1.toList.tail.all continuesIdent = true ∧
      wordKind e.1.toList = e.2 := by
  decide

end Lexeme

namespace Emits

open Lexeme

variable {k : List Char} {b : Bool}

theorem identifier {name : String} (hname : isIdentifier name = true) (hk : endsWord k = true) :
    Emits name.toList k b true (Form.word name) := by
  unfold isIdentifier at hname
  split at hname
  · cases hname
  · rename_i c cs heq
    simp only [Bool.and_eq_true, beq_iff_eq] at hname
    obtain ⟨⟨hc, hcs⟩, hkind⟩ := hname
    have hscan := scan_word hc hcs hk
    rw [hkind] at hscan
    exact token heq hscan

theorem keyword {spelling : String} (hmem : (spelling, kind) ∈ TokenKind.keywords)
    (hk : endsWord k = true) : Emits spelling.toList k b kind.endsStatement (Form.one kind) := by
  obtain ⟨hhead, htail, hkind⟩ := keyword_classes _ hmem
  cases htext : spelling.toList with
  | nil => rw [htext] at hhead; cases hhead
  | cons c u =>
    rw [htext] at hhead htail hkind
    have hscan := scan_word (u := u) hhead htail hk
    rw [show wordKind (c :: u) = kind from hkind] at hscan
    rw [← htext]
    exact (token htext hscan).mono fun ts => Form.one_of_text

end Emits

namespace Lexeme

variable {e : String × TokenKind}

/-- The characters with which operators go on behind the text of an operator. -/
def followers (s : List Char) : List Char :=
  TokenKind.operators.filterMap fun e => if s.isPrefixOf e.1.toList then e.1.toList[s.length]? else none

/-- How an operator starts: with ink that starts no other token; if that is a point, the operator is
a single point or an ellipsis. -/
abbrev OpensOperator (text : List Char) (c : Char) : Prop :=
  isInk c = true ∧ startsIdent c = false ∧ c.isDigit = false ∧ c ≠ '\x27' ∧ c ≠ '\x22' ∧
    c ≠ '\x60' ∧ (c = '.' → text = ['.'] ∨ text[1]? = some '.')

theorem operator_classes (he : e ∈ TokenKind.operators)
    (htext : e.1.toList = c :: u) : OpensOperator (c :: u) c := by
  have hall : ∀ e ∈ TokenKind.operators,
      (e.1.toList.head?.all fun c => OpensOperator e.1.toList c) = true := by decide
  have hfirst := hall e he
  rw [htext, head?_cons, Option.all_some, decide_eq_true_eq] at hfirst
  exact hfirst

theorem operator_first : ∀ e ∈ TokenKind.operators,
    TokenKind.operators.find? (fun e' => e'.1.toList.isPrefixOf e.1.toList) = some e := by
  decide

/-- An operator is read up to its end unless what follows makes a longer one. -/
theorem operator?_append (he : e ∈ TokenKind.operators)
    (hk : ∀ d ∈ k.head?, d ∉ followers e.1.toList) :
    operator? (e.1.toList ++ k) = some (e.2, e.1.length) := by
  refine Option.map_eq_some_iff.2 ⟨e, find?_eq_of_imp (operator_first e he) ?_ ?_, rfl⟩
  · intro e' he' hpre
    have hpre := isPrefixOf_iff_prefix.1 hpre
    rw [List.isPrefixOf_iff_prefix]
    by_cases hlen : e'.1.toList.length ≤ e.1.toList.length
    · exact prefix_of_prefix_length_le hpre (prefix_append _ _) hlen
    · -- a longer operator goes on with the first character of `k`
      obtain ⟨t, ht⟩ := prefix_of_prefix_length_le (prefix_append _ k) hpre (by omega)
      rw [← ht, prefix_append_right_inj] at hpre
      cases t with
      | nil => rw [← ht] at hlen; simp at hlen
      | cons d t =>
        obtain ⟨v, rfl⟩ := hpre
        refine absurd ?_ (hk d rfl)
        refine mem_filterMap.2 ⟨e', he', ?_⟩
        rw [← ht, if_pos (List.isPrefixOf_iff_prefix.2 (prefix_append _ _))]
        simp
  · exact isPrefixOf_iff_prefix.2 (prefix_append _ _)

end Lexeme

namespace Emits

open Lexeme

variable {k : List Char} {b : Bool}

/-- A mark, before a text that makes no longer operator, comment or number of it. -/
theorem mark {spelling : String} (hmem : (spelling, kind) ∈ TokenKind.operators)
    (hslash : spelling.toList.head? ≠ some '/')
    (hk : ∀ d ∈ k.head?, d ∉ followers spelling.toList ∧ (spelling = "." → d.isDigit = false)) :
    Emits spelling.toList k b kind.endsStatement (Form.one kind) := by
  have hop := operator?_append hmem fun d hd => (hk d hd).1
  simp only [← String.length_toList] at hop
  cases htext : spelling.toList with
  | nil =>
    have := length_pos_of_operator? hop
    rw [htext] at this
    cases this
  | cons c u =>
    rw [htext] at hop hslash
    obtain ⟨hink, hword, hdigit, hchar, hstring, hraw, hpoint⟩ := operator_classes hmem htext
    have hcomment : startsComment c (u ++ k) = false := by
      simp [startsComment, show c ≠ '/' from fun h => hslash (congrArg some h)]
    have hnumber : ¬(c = '.' && (u ++ k).head?.any Char.isDigit) = true := by
      simp only [Bool.and_eq_true, decide_eq_true_eq, not_and]
      rintro rfl
      rcases hpoint rfl with hone | hdots
      · -- a single point: what follows is no digit
        have hspelling : spelling = "." := String.toList_inj.1 (htext.trans hone)
        obtain rfl : u = [] := (List.cons.inj hone).2
        cases k with
        | nil => simp
        | cons d k => simp [(hk d rfl).2 hspelling]
      · cases u with
        | nil => cases hdots
        | cons d u => cases hdots; simp [Char.isDigit]
    have hscan : scan c (u ++ k) = .ok (.token kind, u.length) := by
      rw [scan_eq_tokenAt hink hcomment, tokenAt, if_neg (by simp [hword]), if_neg (by simp [hdigit]),
        if_neg hnumber, if_neg hchar, if_neg hstring, if_neg hraw]
      rw [cons_append] at hop
      rw [hop]
      rfl
    rw [← htext]
    exact (token htext hscan).mono fun ts => Form.one_of_text

end Emits

/-! ## Tokens that come from a text -/

/-- A sequence of two computations succeeds only if both do. -/
theorem ok_of_bind {ε α β : Type} {x : Except ε α} {f : α → Except ε β} {b : β}
    (h : x >>= f = .ok b) : ∃ a, x = .ok a ∧ f a = .ok b := by
  cases x with
  | error e => cases h
  | ok a => exact ⟨a, rfl, h⟩

namespace Lexeme

/-- Whether a lexeme is skipped without ending the statement. -/
def passes (open_ : Bool) (cls : Class) (text : List Char) : Bool :=
  match cls with
  | .blank | .lineComment => true
  | .newline => !open_
  | .blockComment => !(open_ && (text.takeWhile fun d => !isBreak d).length < text.length)
  | .byteOrderMark | .token _ => false

/-- A lexeme that is skipped is added to what was skipped before. -/
theorem tokensFrom_pass {v z : List Char} {cls : Class} (pos : Nat) (lead : List Char)
    (hscan : scan c (v ++ z) = .ok (cls, v.length)) (hpass : passes open_ cls (c :: v) = true) :
    tokensFrom pos lead open_ (c :: v ++ z)
      = tokensFrom (pos + Text.byteSize (c :: v)) (lead ++ c :: v) open_ z := by
  rw [cons_append, tokensFrom, hscan]
  simp only [take_left, drop_left]
  cases cls with
  | blank => rfl
  | lineComment => rfl
  | newline =>
    simp only [passes, Bool.not_eq_true'] at hpass
    rw [hpass]
    rfl
  | blockComment =>
    simp only [passes, Bool.not_eq_true'] at hpass
    simp only [hpass, Bool.false_eq_true, if_false]
  | byteOrderMark => cases hpass
  | token kind => cases hpass

/-- What one lexeme does: it is skipped; it is skipped and ends the statement; or it is a token. -/
theorem tokensFrom_cases (h : tokensFrom pos lead open_ (c :: cs) = .ok ts) :
    ∃ v z cls, cs = v ++ z ∧ scan c (v ++ z) = .ok (cls, v.length) ∧
      ((passes open_ cls (c :: v) = true ∨ cls = .byteOrderMark ∧ pos = 0) ∧
          tokensFrom (pos + Text.byteSize (c :: v)) (lead ++ c :: v) open_ z = .ok ts ∨
        (∃ lead₀ pos₀ lead' ts', ts = Token.inserted lead₀ pos₀ :: ts' ∧
          tokensFrom (pos + Text.byteSize (c :: v)) lead' false z = .ok ts') ∨
        ∃ kind ts', cls = .token kind ∧
          ts = ⟨kind, String.ofList lead, String.ofList (c :: v), pos⟩ :: ts' ∧
          tokensFrom (pos + Text.byteSize (c :: v)) [] kind.endsStatement z = .ok ts') := by
  rw [tokensFrom] at h
  cases hscan : scan c cs with
  | error e => rw [hscan] at h; cases h
  | ok found =>
    obtain ⟨cls, n⟩ := found
    have hlen : (cs.take n).length = n := length_take_of_le (scan_le hscan)
    refine ⟨cs.take n, cs.drop n, cls, (take_append_drop n cs).symm, ?_, ?_⟩
    · rw [take_append_drop, hlen, hscan]
    rw [hscan] at h
    cases cls with
    | blank | lineComment => exact .inl ⟨.inl rfl, h⟩
    | newline =>
      cases open_ with
      | false => exact .inl ⟨.inl rfl, h⟩
      | true =>
        right; left
        obtain ⟨ts', hts', heq⟩ := ok_of_bind h
        cases heq
        exact ⟨lead, pos, _, ts', rfl, hts'⟩
    | blockComment =>
      by_cases hends : (open_ && ((c :: cs.take n).takeWhile fun d => !isBreak d).length
          < (c :: cs.take n).length) = true
      · right; left
        simp only [hends, if_true] at h
        obtain ⟨ts', hts', heq⟩ := ok_of_bind h
        cases heq
        exact ⟨_, _, _, ts', rfl, hts'⟩
      · simp only [hends] at h
        refine .inl ⟨.inl ?_, h⟩
        rw [passes, Bool.not_eq_true']
        exact Bool.not_eq_true _ ▸ hends
    | byteOrderMark =>
      by_cases hpos : pos = 0
      · subst hpos
        exact .inl ⟨.inr ⟨rfl, rfl⟩, h⟩
      · simp [hpos] at h
    | token kind =>
      right; right
      obtain ⟨ts', hts', heq⟩ := ok_of_bind h
      cases heq
      exact ⟨kind, ts', rfl, rfl, hts'⟩

theorem byteSize_cons_ne_zero (pos : Nat) (c : Char) (v : List Char) :
    pos + Text.byteSize (c :: v) ≠ 0 := by
  have := c.utf8Size_pos
  rw [Text.byteSize_cons]
  omega

/-- How a list of tokens that comes from a text begins: with a semicolon that was inserted, or
behind skipped lexemes with a token of the text.  Behind the start of the text these lexemes are
skipped in the same way before any text that starts with the same character. -/
theorem tokensFrom_cons (h : tokensFrom pos lead open_ cs = .ok (t :: ts)) :
    (t.kind = .semi ∧ (ts = [] ∨ ∃ pos' lead' cs', pos' ≠ 0 ∧
      tokensFrom pos' lead' false cs' = .ok ts)) ∨
    ∃ skipped c u z pos', cs = skipped ++ (c :: u ++ z) ∧
      t.lead = String.ofList (lead ++ skipped) ∧ t.text = String.ofList (c :: u) ∧
      scan c (u ++ z) = .ok (.token t.kind, u.length) ∧
      pos' ≠ 0 ∧ tokensFrom pos' [] t.kind.endsStatement z = .ok ts ∧
      (pos ≠ 0 → ∀ pos₁ lead₁ y, ∃ pos₂, tokensFrom pos₁ lead₁ open_ (skipped ++ c :: y)
        = tokensFrom pos₂ (lead₁ ++ skipped) open_ (c :: y)) := by
  -- the skipped lexemes are peeled off one after the other
  induction hn : cs.length using Nat.strongRecOn generalizing pos lead cs with
  | _ n ih =>
  subst hn
  cases cs with
  | nil =>
    rw [tokensFrom] at h
    cases open_ with
    | false => simp at h
    | true =>
      simp only [if_true, Except.ok.injEq, List.cons.injEq] at h
      obtain ⟨rfl, rfl⟩ := h
      exact .inl ⟨rfl, .inl rfl⟩
  | cons d cs =>
    obtain ⟨v, z, cls, rfl, hscan, hcases⟩ := tokensFrom_cases h
    rcases hcases with ⟨hpass, hrest⟩ | ⟨lead₀, pos₀, lead', ts', heq, hrest⟩ |
      ⟨kind, ts', rfl, heq, hrest⟩
    · have hlt : z.length < (d :: (v ++ z)).length := by
        rw [length_cons, length_append]
        omega
      have hnext := ih z.length hlt hrest rfl
      rcases hnext with hsemi | ⟨skipped, c, u, z', pos', rfl, hlead, htext, htoken, hpos', hts, hskip⟩
      · exact .inl hsemi
      · refine .inr ⟨d :: v ++ skipped, c, u, z', pos', by simp, ?_, htext, htoken, hpos', hts, ?_⟩
        · rw [hlead, append_assoc]
        · intro hpos pos₁ lead₁ y
          have hpass : passes open_ cls (d :: v) = true :=
            hpass.resolve_right fun hmark => hpos hmark.2
          have hcls : ∀ kind, cls ≠ .token kind := by
            rintro kind rfl
            cases hpass
          have hscan' : scan d (v ++ (skipped ++ c :: y)) = .ok (cls, v.length) := by
            cases skipped with
            | nil | cons e skipped => exact scan_trivia_append hcls hscan
          obtain ⟨pos₂, heq⟩ := hskip (byteSize_cons_ne_zero pos d v)
            (pos₁ + Text.byteSize (d :: v)) (lead₁ ++ d :: v) y
          refine ⟨pos₂, ?_⟩
          rw [append_assoc, tokensFrom_pass pos₁ lead₁ hscan' hpass, heq, append_assoc]
    · cases heq
      exact .inl ⟨rfl, .inr ⟨_, lead', z, byteSize_cons_ne_zero pos d v, hrest⟩⟩
    · cases heq
      refine .inr ⟨[], d, v, z, _, rfl, by simp, rfl, hscan, byteSize_cons_ne_zero pos d v, hrest, ?_⟩
      intro _ pos₁ lead₁ y
      exact ⟨pos₁, by simp⟩

end Lexeme

/-- A token as it was written: it is the one that its own text starts with, before some text. -/
def Token.IsRead (t : Token) : Prop :=
  t.kind = .semi ∨ ∃ c u z, t.text = String.ofList (c :: u) ∧
    Lexeme.scan c (u ++ z) = .ok (.token t.kind, u.length)

/-- Tokens that come from a text. -/
def Lexed (ts : List Token) : Prop :=
  ∃ pos lead open_ cs, Lexeme.tokensFrom pos lead open_ cs = .ok ts

namespace Lexed

variable {t : Token} {ts : List Token}

theorem isRead (h : Lexed (t :: ts)) : t.IsRead := by
  obtain ⟨pos, lead, open_, cs, hts⟩ := h
  rcases Lexeme.tokensFrom_cons hts with ⟨hsemi, -⟩ | ⟨-, c, u, z, -, -, -, htext, hscan, -⟩
  · exact .inl hsemi
  · exact .inr ⟨c, u, z, htext, hscan⟩

theorem nil : Lexed [] :=
  ⟨0, [], false, [], by rw [Lexeme.tokensFrom]; rfl⟩

theorem tail (h : Lexed (t :: ts)) : Lexed ts := by
  obtain ⟨pos, lead, open_, cs, hts⟩ := h
  rcases Lexeme.tokensFrom_cons hts with ⟨-, rfl | ⟨pos', lead', cs', -, hts⟩⟩ |
    ⟨-, -, -, z, pos', -, -, -, -, -, hts, -⟩
  · exact nil
  · exact ⟨pos', lead', false, cs', hts⟩
  · exact ⟨pos', [], _, z, hts⟩

theorem append {as bs : List Token} (h : Lexed (as ++ bs)) : Lexed bs := by
  induction as with
  | nil => exact h
  | cons a as ih => exact ih h.tail

end Lexed

/-! ## Cutting tokens out of a text -/

namespace Lexeme

theorem eq_bracket_of_scan (h : scan c cs = .ok (.token .rBrack, n)) : c = ']' := by
  have hop : ∀ e ∈ TokenKind.operators, e.2 = .rBrack → e.1.toList = [']'] := by decide
  rcases token_cases h (by decide) (by decide) (by decide) with ⟨hkind, -⟩ | ⟨hkind, -⟩ |
    ⟨e, he, hkind, hprefix, -⟩
  · cases hkind
  · cases hkind
  · rw [hop e he hkind] at hprefix
    obtain ⟨t, ht⟩ := hprefix
    exact (List.cons.inj ht).1.symm

/-- A text that starts with a point does not give a closing bracket first. -/
theorem head?_ne_point (h : tokensFrom pos lead open_ cs = .ok (t :: ts)) (ht : t.kind = .rBrack) :
    cs.head? ≠ some '.' := by
  intro hhead
  obtain ⟨cs, rfl⟩ : ∃ cs', cs = '.' :: cs' := by
    cases cs with
    | nil => cases hhead
    | cons c cs => cases hhead; exact ⟨cs, rfl⟩
  obtain ⟨v, z, cls, rfl, hscan, hcases⟩ := tokensFrom_cases h
  obtain ⟨kind, rfl⟩ : ∃ kind, cls = .token kind := by
    rw [scan_eq_tokenAt rfl rfl] at hscan
    cases htoken : tokenAt '.' (v ++ z) with
    | error e => rw [htoken] at hscan; cases hscan
    | ok found =>
      rw [htoken] at hscan
      exact ⟨found.1, (Prod.mk.inj (Except.ok.inj hscan)).1.symm⟩
  rcases hcases with ⟨hpass | ⟨hmark, -⟩, -⟩ | ⟨lead₀, pos₀, -, ts', heq, -⟩ |
    ⟨kind', ts', hkind, heq, -⟩
  · cases hpass
  · cases hmark
  · cases heq
    cases ht
  · cases heq
    cases hkind
    rw [show kind = .rBrack from ht] at hscan
    exact absurd (eq_bracket_of_scan hscan) (by decide)

end Lexeme

/-- Whether a line break ends the statement behind tokens, given whether it does so before them. -/
def opensAfter (open_ : Bool) : List Token → Bool
  | [] => open_
  | t :: ts => opensAfter t.kind.endsStatement ts

/-- The tokens before a closing bracket can be cut out of a text: before another closing bracket
the characters that they were made of give the same tokens. -/
theorem Lexeme.tokensFrom_replay
    (h : tokensFrom pos [] open_ cs = .ok (ts ++ close :: rest)) (hpos : pos ≠ 0)
    (hsemi : ∀ t ∈ ts, t.kind ≠ .semi) (hclose : close.kind = .rBrack) :
    ∃ v r, cs = v ++ r ∧ r.head? ≠ some '.' ∧
      String.ofList v = String.join (ts.map fun t => t.lead ++ t.text) ∧
      ∀ pos₁ k, ∃ ts' pos₂, ts'.map (fun t => (t.kind, t.lead, t.text))
          = ts.map (fun t => (t.kind, t.lead, t.text)) ∧
        tokensFrom pos₁ [] open_ (v ++ ']' :: k)
          = (tokensFrom pos₂ [] (opensAfter open_ ts) (']' :: k)).map (ts' ++ ·) := by
  induction ts generalizing pos open_ cs with
  | nil =>
    refine ⟨[], cs, rfl, head?_ne_point h hclose, rfl, fun pos₁ k => ⟨[], pos₁, rfl, ?_⟩⟩
    rcases heq : tokensFrom pos₁ [] open_ (']' :: k) with e | ts
    · simp [opensAfter, heq, Except.map]
    · simp [opensAfter, heq, Except.map]
  | cons t ts ih =>
    rw [cons_append] at h
    rcases tokensFrom_cons h with ⟨hkind, -⟩ |
      ⟨skipped, c, u, z, pos', rfl, hlead, htext, hscan, hpos', hts, hskip⟩
    · exact absurd hkind (hsemi t mem_cons_self)
    · obtain ⟨v, r, rfl, hr, hv, hreplay⟩ :=
        ih hts hpos' fun t ht => hsemi t (mem_cons_of_mem _ ht)
      refine ⟨skipped ++ (c :: u ++ v), r, by simp, hr, ?_, ?_⟩
      · rw [map_cons, String.join_cons, ← hv, hlead, htext, ← String.ofList_append,
          ← String.ofList_append]
        simp
      · intro pos₁ k
        obtain ⟨pos₂, hskipped⟩ := hskip hpos pos₁ [] (u ++ (v ++ ']' :: k))
        obtain ⟨ts', pos₃, hsame, hrest⟩ := hreplay (pos₂ + Text.byteSize (c :: u)) k
        have hscan' := scan_token_stop (k := ']' :: k) hscan hr rfl
        refine ⟨⟨t.kind, t.lead, t.text, pos₂⟩ :: ts', pos₃, by simp [hsame], ?_⟩
        have htoken := tokensFrom_token pos₂ skipped open_ hscan'
        have hbegin : (skipped ++ (c :: u ++ v)) ++ ']' :: k
            = skipped ++ c :: (u ++ (v ++ ']' :: k)) := by simp
        rw [hbegin, hskipped, nil_append, ← cons_append, htoken, hrest, hlead, htext,
          nil_append, opensAfter]
        rcases tokensFrom pos₃ [] (opensAfter t.kind.endsStatement ts) (']' :: k) with e | rest <;>
          rfl

/-- The kinds of the tokens of the length of an array: those of its text before a closing bracket,
without the bracket and the semicolon that is inserted behind it. -/
def lengthKinds (len : String) : List TokenKind :=
  match tokenize (len.toList ++ [']']) with
  | .ok ts => (ts.map (·.kind)).dropLast.dropLast
  | .error _ => []

/-- The tokens of the length of an array. -/
def Form.length (len : String) : Form := fun ts =>
  ts.map (·.kind) = lengthKinds len ∧ Parser.writtenText ts = len

/-- The depth of nesting behind a token of a length. -/
def depthAfter (depth : Nat) : TokenKind → Nat
  | .lParen | .lBrack => depth + 1
  | .rParen | .rBrack => depth - 1
  | _ => depth

/-- Whether tokens of these kinds are all taken as part of a length, so that the next closing
bracket ends it. -/
def spansLength (depth : Nat) : List TokenKind → Bool
  | [] => depth == 0
  | kind :: kinds => !decide (kind = .rBrack ∧ depth = 0) && kind != .semi &&
      spansLength (depthAfter depth kind) kinds

theorem spansLength_cons :
    spansLength depth (kind :: kinds) = true ↔ ¬(kind = .rBrack ∧ depth = 0) ∧ kind ≠ .semi ∧
      spansLength (depthAfter depth kind) kinds = true := by
  rw [spansLength, Bool.and_eq_true, Bool.and_eq_true, Bool.not_eq_true', decide_eq_false_iff_not,
    bne_iff_ne, and_assoc]

theorem ne_semi_of_spansLength (h : spansLength depth kinds = true) :
    ∀ kind ∈ kinds, kind ≠ .semi := by
  induction kinds generalizing depth with
  | nil => exact nofun
  | cons kind kinds ih =>
    obtain ⟨-, hsemi, hrest⟩ := spansLength_cons.1 h
    exact forall_mem_cons.2 ⟨hsemi, ih hrest⟩

/-- A text that can stand as the length of an array: before a closing bracket it gives tokens whose
written text it is, and all of them are part of the length. -/
def IsLength (len : String) : Prop :=
  lengthKinds len ≠ [] ∧ spansLength 0 (lengthKinds len) = true ∧ ∃ after, ∀ before k,
    Emits len.toList (']' :: k) before after (Form.length len)

/-- The kinds of the tokens that a length gives before any text are the kinds of its tokens. -/
theorem lengthKinds_eq {len : String} {after : Bool}
    (h : Emits len.toList [']'] false after fun ts => ts.map (·.kind) = kinds) :
    lengthKinds len = kinds := by
  have hclose : Emits "]".toList [] after true (Form.one .rBrack) :=
    Emits.mark (by decide) (by decide) (by simp)
  obtain ⟨_, pos, lead, ⟨ts, _, hkinds, ⟨close, rfl, -⟩, rfl⟩, heq⟩ := h.append hclose 0 []
  have htokens : tokenize (len.toList ++ [']'])
      = .ok (ts ++ [close] ++ [Token.inserted lead pos]) := by
    rw [append_nil, Lexeme.tokensFrom] at heq
    exact heq
  rw [lengthKinds, htokens]
  simp [hkinds]

/-- Tokens of a text that stand before a closing bracket are written as a length. -/
theorem Lexed.isLength (h : Lexed (t :: ts ++ close :: rest))
    (hspans : spansLength 0 ((t :: ts).map (·.kind)) = true) (hclose : close.kind = .rBrack) :
    IsLength (Parser.writtenText (t :: ts)) := by
  have hsemi : ∀ t' ∈ t :: ts, t'.kind ≠ .semi :=
    fun t' ht' => ne_semi_of_spansLength hspans _ (mem_map_of_mem ht')
  obtain ⟨pos, lead, open_, cs, hts⟩ := h
  rw [cons_append] at hts
  rcases Lexeme.tokensFrom_cons hts with ⟨hkind, -⟩ |
    ⟨skipped, c, u, z, pos', -, -, htext, hscan, hpos', hrest, -⟩
  · exact absurd hkind (hsemi t mem_cons_self)
  obtain ⟨v, r, rfl, hr, hv, hreplay⟩ := Lexeme.tokensFrom_replay hrest hpos'
    (fun t' ht' => hsemi t' (mem_cons_of_mem _ ht')) hclose
  have hwritten : Parser.writtenText (t :: ts) = String.ofList (c :: u ++ v) := by
    rw [Parser.writtenText, ← hv, htext, ← String.ofList_append]
  have hemits : ∀ before k, Emits (Parser.writtenText (t :: ts)).toList (']' :: k) before
      (opensAfter t.kind.endsStatement ts) fun ts' =>
        ts'.map (·.kind) = (t :: ts).map (·.kind) ∧
          Parser.writtenText ts' = Parser.writtenText (t :: ts) := by
    intro before k pos₁ lead₁
    obtain ⟨ts', pos₂, hsame, heq⟩ := hreplay (pos₁ + Text.byteSize (c :: u)) k
    have hscan' := Lexeme.scan_token_stop (k := ']' :: k) hscan hr rfl
    have htoken := Lexeme.tokensFrom_token pos₁ lead₁ before hscan'
    refine ⟨⟨t.kind, String.ofList lead₁, t.text, pos₁⟩ :: ts', pos₂, [], ⟨?_, ?_⟩, ?_⟩
    · have hkinds := congrArg (List.map Prod.fst) hsame
      simpa [Function.comp_def] using hkinds
    · have htexts := congrArg (List.map fun p => p.2.1 ++ p.2.2) hsame
      simp only [map_map, Function.comp_def] at htexts
      rw [Parser.writtenText, Parser.writtenText, htexts]
    · rw [hwritten, String.toList_ofList, append_assoc, htoken, heq, htext]
      rcases Lexeme.tokensFrom pos₂ [] (opensAfter t.kind.endsStatement ts) (']' :: k) with e | rest
        <;> rfl
  have hkinds := lengthKinds_eq ((hemits false []).mono fun _ => And.left)
  exact ⟨by simp [hkinds], by rw [hkinds]; exact hspans, _, fun before k =>
    (hemits before k).mono fun _ h => ⟨h.1.trans hkinds.symm, h.2⟩⟩

/-! ## Identifiers and tags among the tokens of a text -/

/-- The text of an identifier is one. -/
theorem Token.IsRead.isIdentifier (h : t.IsRead) (hkind : t.kind = .ident) :
    isIdentifier t.text = true := by
  rcases h with hsemi | ⟨c, u, z, htext, hscan⟩
  · rw [hkind] at hsemi; cases hsemi
  obtain ⟨-, -, htoken⟩ := Lexeme.tokenAt_of_scan hscan
  have hop : ∀ e ∈ TokenKind.operators, e.2 ≠ .ident := by decide
  rw [hkind] at htoken
  rcases Lexeme.tokenAt_cases htoken with ⟨hstart, hword, hlen⟩ | hnumber | ⟨hkind, -⟩ |
    ⟨hkind, -⟩ | ⟨e, he, hkind, -⟩
  · obtain ⟨hall, hstop⟩ := Lexeme.length_takeWhile_append.1 hlen.symm
    rw [Lexeme.takeWhile_append_of_all hall hstop] at hword
    simp [Stubwright.isIdentifier, htext, hstart, hall, ← hword]
  · simp at hnumber
  · cases hkind
  · cases hkind
  · exact absurd hkind (hop e he)

theorem Lexeme.literal_of_scan (h : scan c cs = .ok (.token kind, n))
    (hkind : Parser.isTag (some kind) = true) :
    (kind = .stringLit ∧ c = '\x22' ∧ quotedEnd? c cs = some n) ∨
      kind = .rawStringLit ∧ c = '\x60' ∧ rawEnd? cs = some n := by
  have hno : ∀ e ∈ TokenKind.operators, Parser.isTag (some e.2) = false := by decide
  have hkinds : kind = .stringLit ∨ kind = .rawStringLit := by simpa [Parser.isTag] using hkind
  have hcases := token_cases h (by rcases hkinds with rfl | rfl <;> decide)
    (by rcases hkinds with rfl | rfl <;> decide) (by rcases hkinds with rfl | rfl <;> decide)
  rcases hcases with hstring | hraw | ⟨e, he, rfl, -⟩
  · exact .inl hstring
  · exact .inr hraw
  · rw [hno e he] at hkind; cases hkind

/-- A text that can stand as the tag of a field: a string literal, whatever follows it. -/
def IsTag (tag : String) : Prop :=
  ∃ kind c u, Parser.isTag (some kind) = true ∧ tag = String.ofList (c :: u) ∧
    ∀ k, Lexeme.scan c (u ++ k) = .ok (.token kind, u.length)

/-- The text of a string literal can stand as a tag. -/
theorem Token.IsRead.isTag (h : t.IsRead) (hkind : Parser.isTag (some t.kind) = true) :
    IsTag t.text := by
  rcases h with hsemi | ⟨c, u, z, htext, hscan⟩
  · rw [hsemi] at hkind; cases hkind
  refine ⟨t.kind, c, u, hkind, htext, fun k => ?_⟩
  rcases Lexeme.literal_of_scan hscan hkind with ⟨hstring, rfl, hend⟩ | ⟨hraw, rfl, hend⟩
  · rw [hstring]
    exact Lexeme.scan_string (Lexeme.quotedEnd?_append (by decide) u hend)
  · rw [hraw]
    exact Lexeme.scan_raw (Lexeme.rawEnd?_append hend)

end Stubwright
