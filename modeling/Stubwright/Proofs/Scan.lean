import Stubwright.Token
import Mathlib

/-!
# Lexemes and what follows them

A lexeme is read by the longest match, so where it ends depends on what follows.  This module says
how little of that matters.

* `scan_cases`: what is read at the start of a text, class by class.
* `scan_le`: it is no longer than the text.
-/

namespace Stubwright.Lexeme

open List

variable {c d quote : Char} {cs u z k w r x z' head : List Char} {cls : Class} {n : Nat}
  {kind : TokenKind} {p : Char → Bool} {prev : Char} {hex : Bool}

/-! ## Tokens by their first character -/

/-- Whether a character starts neither blanks nor a line break nor is a byte order mark. -/
def isInk (c : Char) : Bool :=
  !isSpace c && !isBreak c && c != '﻿'

def startsComment (c : Char) (cs : List Char) : Bool :=
  c = '/' && (cs.head? = some '/' || cs.head? = some '*')

/-- The token at the start of the text `c :: cs`, by its first character. -/
def tokenAt (c : Char) (cs : List Char) : Except SyntaxError.Cause (TokenKind × Nat) :=
  if startsIdent c then
    .ok (wordKind (c :: cs.takeWhile continuesIdent), (cs.takeWhile continuesIdent).length)
  else if c.isDigit then .ok (number [c] cs)
  else if c = '.' && cs.head?.any Char.isDigit then
    .ok ((number (c :: cs.take 1) (cs.drop 1)).1, (number (c :: cs.take 1) (cs.drop 1)).2 + 1)
  else if c = '\x27' then
    match quotedEnd? c cs with
    | some n => if n = 1 then .error .invalidToken else .ok (.charLit, n)
    | none => .error .invalidToken
  else if c = '\x22' then
    match quotedEnd? c cs with
    | some n => .ok (.stringLit, n)
    | none => .error .invalidToken
  else if c = '\x60' then
    match rawEnd? cs with
    | some n => .ok (.rawStringLit, n)
    | none => .error .invalidToken
  else match operator? (c :: cs) with
    | some (kind, n) => .ok (kind, n - 1)
    | none => .error .invalidToken

/-- Where neither blanks, a line break, a byte order mark nor a comment starts, a token does. -/
theorem scan_eq_tokenAt (hink : isInk c = true) (hcomment : startsComment c cs = false) :
    scan c cs = (tokenAt c cs).map fun (kind, n) => (.token kind, n) := by
  simp only [isInk, Bool.and_eq_true, Bool.not_eq_true', bne_iff_ne] at hink
  obtain ⟨⟨hspace, hbreak⟩, hmark⟩ := hink
  have hcr : c ≠ '\x0d' := by rintro rfl; cases hbreak
  have hline : ¬(c = '/' ∧ cs.head? = some '/') := by
    rintro ⟨rfl, h⟩; simp [startsComment, h] at hcomment
  have hblock : ¬(c = '/' ∧ cs.head? = some '*') := by
    rintro ⟨rfl, h⟩; simp [startsComment, h] at hcomment
  simp only [scan, tokenAt, hspace, hbreak, hmark, hcr, hline, hblock, Bool.and_eq_true,
    decide_eq_true_eq, Bool.false_eq_true, decide_false, Bool.false_and, if_false]
  split_ifs with hword hdigit hpoint hchar hstring hraw
  · rfl
  · rfl
  · rfl
  · cases quotedEnd? c cs with
    | none => rfl
    | some n => by_cases hn : n = 1 <;> simp [hn, Except.map]
  · cases quotedEnd? c cs <;> rfl
  · cases rawEnd? cs <;> rfl
  · rcases operator? (c :: cs) with _ | ⟨kind, n⟩ <;> rfl

/-! ## Lexemes that are no tokens -/

theorem Class.token_or (cls : Class) :
    (∃ kind, cls = .token kind) ∨ ∀ kind, cls ≠ .token kind := by
  cases cls <;> simp

theorem scan_space (h : isSpace c = true) (cs : List Char) :
    scan c cs = .ok (.blank, (cs.takeWhile isSpace).length) := by
  simp only [scan, h, if_true]

theorem isSpace_eq_false_of_isBreak (h : isBreak c = true) : isSpace c = false := by
  simp only [isBreak, Bool.or_eq_true, decide_eq_true_eq] at h
  rcases h with rfl | rfl <;> rfl

theorem scan_break (h : isBreak c = true) (cs : List Char) :
    scan c cs = .ok (.newline, if c = '\x0d' ∧ cs.head? = some '\n' then 1 else 0) := by
  by_cases hcr : c = '\x0d' ∧ cs.head? = some '\n'
  · obtain ⟨rfl, hfeed⟩ := hcr
    simp [scan, isSpace, hfeed]
  · simp [scan, isSpace_eq_false_of_isBreak h, h, hcr]

theorem scan_byteOrderMark (cs : List Char) : scan '﻿' cs = .ok (.byteOrderMark, 0) := by
  simp [scan, isSpace, isBreak]

theorem scan_lineComment (cs : List Char) :
    scan '/' ('/' :: cs)
      = .ok (.lineComment, (cs.takeWhile fun d => !isBreak d).length + 1) := by
  simp [scan, isSpace, isBreak]

theorem scan_blockComment (cs : List Char) :
    scan '/' ('*' :: cs) = match blockCommentEnd? cs with
      | some n => .ok (.blockComment, n + 1)
      | none => .error .unterminatedComment := by
  cases h : blockCommentEnd? cs <;> simp [scan, isSpace, isBreak, h]

/-- What is read at the start of a text, class by class. -/
theorem scan_cases (h : scan c cs = .ok (cls, n)) :
    (cls = .blank ∧ isSpace c = true ∧ n = (cs.takeWhile isSpace).length) ∨
      (cls = .newline ∧ isBreak c = true ∧
        n = if c = '\x0d' ∧ cs.head? = some '\n' then 1 else 0) ∨
      (cls = .byteOrderMark ∧ c = '﻿' ∧ n = 0) ∨
      (cls = .lineComment ∧ c = '/' ∧ ∃ cs', cs = '/' :: cs' ∧
        n = (cs'.takeWhile fun d => !isBreak d).length + 1) ∨
      (cls = .blockComment ∧ c = '/' ∧ ∃ cs' m, cs = '*' :: cs' ∧
        blockCommentEnd? cs' = some m ∧ n = m + 1) ∨
      ∃ kind, cls = .token kind ∧ isInk c = true ∧ startsComment c cs = false ∧
        tokenAt c cs = .ok (kind, n) := by
  rcases hspace : isSpace c with _ | _
  · rcases hbreak : isBreak c with _ | _
    · by_cases hmark : c = '﻿'
      · subst hmark
        rw [scan_byteOrderMark] at h
        cases h
        exact .inr (.inr (.inl ⟨rfl, rfl, rfl⟩))
      · have hink : isInk c = true := by simp [isInk, hspace, hbreak, hmark]
        rcases hcomment : startsComment c cs with _ | _
        · have hscan := h
          rw [scan_eq_tokenAt hink hcomment] at hscan
          cases htoken : tokenAt c cs with
          | error e => rw [htoken] at hscan; cases hscan
          | ok r =>
            rw [htoken] at hscan
            cases hscan
            exact .inr (.inr (.inr (.inr (.inr ⟨r.1, rfl, hink, rfl, rfl⟩))))
        · simp only [startsComment, Bool.and_eq_true, Bool.or_eq_true, decide_eq_true_eq] at hcomment
          obtain ⟨rfl, hd⟩ := hcomment
          rcases cs with _ | ⟨d, cs⟩
          · simp at hd
          · rcases hd with hd | hd
            · cases hd
              rw [scan_lineComment] at h
              cases h
              exact .inr (.inr (.inr (.inl ⟨rfl, rfl, cs, rfl, rfl⟩)))
            · cases hd
              rw [scan_blockComment] at h
              cases hend : blockCommentEnd? cs with
              | none => rw [hend] at h; cases h
              | some m =>
                rw [hend] at h
                cases h
                exact .inr (.inr (.inr (.inr (.inl ⟨rfl, rfl, cs, m, rfl, hend, rfl⟩))))
    · rw [scan_break hbreak] at h
      cases h
      exact .inr (.inl ⟨rfl, rfl, rfl⟩)
  · rw [scan_space hspace] at h
    cases h
    exact .inl ⟨rfl, rfl, rfl⟩

/-- A lexeme that is a token starts with ink and is no comment. -/
theorem tokenAt_of_scan (h : scan c cs = .ok (.token kind, n)) :
    isInk c = true ∧ startsComment c cs = false ∧ tokenAt c cs = .ok (kind, n) := by
  rcases scan_cases h with ⟨⟨⟩, -⟩ | ⟨⟨⟩, -⟩ | ⟨⟨⟩, -⟩ | ⟨⟨⟩, -⟩ | ⟨⟨⟩, -⟩ | ⟨kind', hkind, htoken⟩
  cases hkind
  exact htoken

/-! ## What follows a lexeme -/

/-- A run of characters of a class ends where a character of another class follows. -/
theorem length_takeWhile_append :
    ((u ++ z).takeWhile p).length = u.length ↔ u.all p = true ∧ z.head?.any p = false := by
  induction u with
  | nil => cases z with
    | nil => simp
    | cons d z => by_cases hd : p d <;> simp [hd]
  | cons d u ih => by_cases hd : p d <;> simp [hd, ih]

theorem takeWhile_append_of_all (hu : u.all p = true) (hz : z.head?.any p = false) :
    (u ++ z).takeWhile p = u := by
  have hlen := length_takeWhile_append.2 ⟨hu, hz⟩
  have hpre : (u ++ z).takeWhile p <+: u ++ z := takeWhile_prefix p
  exact (prefix_of_prefix_length_le hpre (prefix_append u z) (Nat.le_of_eq hlen)).eq_of_length hlen

/-- Whether a number goes on with `c` after `prev`, given the character behind `c`. -/
def continuesNumber (hex : Bool) (prev c : Char) (next : Option Char) : Bool :=
  c.isAlphanum || c = '_' || (c = '.' && next != some '.') ||
    ((c = '+' || c = '-') && (prev = 'p' || prev = 'P' || (!hex && (prev = 'e' || prev = 'E'))))

theorem numberTail_cons (hex : Bool) (prev c : Char) (cs : List Char) :
    numberTail hex prev (c :: cs)
      = if continuesNumber hex prev c cs.head? then numberTail hex c cs + 1 else 0 := by
  rw [numberTail, continuesNumber]

/-- Whether no token goes on with a character: a closing bracket, a blank or a line break. -/
def isStop (d : Char) : Bool :=
  d = ']' || isSpace d || isBreak d

/-- Whether no token goes on with a text. -/
def stopsToken (k : List Char) : Bool :=
  k.head?.all isStop

theorem stopsToken_cons : stopsToken (d :: k) = isStop d :=
  rfl

theorem isStop_cases (h : isStop d = true) :
    d = ']' ∨ d = ' ' ∨ d = '\t' ∨ d = '\x0c' ∨ d = '\n' ∨ d = '\r' := by
  simpa [isStop, isSpace, isBreak, or_assoc] using h

/-- A class of characters without stops has none of them before a stop. -/
theorem head?_any_of_stops (hp : ∀ d, isStop d = true → p d = false) (hk : stopsToken k = true) :
    k.head?.any p = false := by
  cases k with
  | nil => rfl
  | cons d k => exact hp d hk

/-- What stands behind a character matters only as far as it is a point. -/
theorem continuesNumber_append (hex : Bool) (prev c : Char) (hk : stopsToken k = true)
    (hr : r.head? ≠ some '.') :
    continuesNumber hex prev c (w ++ k).head? = continuesNumber hex prev c (w ++ r).head? := by
  cases w with
  | nil =>
    have hr' : (r.head? != some '.') = true := bne_iff_ne.2 hr
    have hk' : (k.head? != some '.') = true := by
      rw [bne_iff_ne]
      intro hpoint
      have := head?_any_of_stops (p := (· == '.')) (by rintro d hd; rcases isStop_cases hd with
        rfl | rfl | rfl | rfl | rfl | rfl <;> rfl) hk
      rw [hpoint] at this
      cases this
    simp only [continuesNumber, nil_append, hr', hk']
  | cons d w => rfl

theorem continuesNumber_stop (hd : isStop d = true)
    (next : Option Char) : continuesNumber hex prev d next = false := by
  rcases isStop_cases hd with rfl | rfl | rfl | rfl | rfl | rfl <;> rfl

/-- A number goes on over the same characters where the text behind it ends in another way. -/
theorem numberTail_stop
    (h : numberTail hex prev (u ++ (x ++ r)) = u.length) (hr : r.head? ≠ some '.')
    (hk : stopsToken k = true) : numberTail hex prev (u ++ (x ++ k)) = u.length := by
  induction u generalizing prev with
  | nil =>
    -- the number ends here: at a character of `x`, or where `k` starts
    cases x with
    | nil =>
      cases k with
      | nil => rfl
      | cons d k =>
        rw [nil_append, nil_append, numberTail_cons, continuesNumber_stop hk]
        rfl
    | cons d x =>
      simp only [nil_append, cons_append, numberTail_cons, length_nil] at h ⊢
      rw [continuesNumber_append hex prev d hk hr]
      split at h
      · cases h
      · rename_i hstop
        rw [if_neg hstop]
  | cons d u ih =>
    simp only [cons_append, numberTail_cons, length_cons, ← append_assoc] at h ⊢
    rw [continuesNumber_append hex prev d hk hr]
    split at h
    · rename_i hgo
      rw [if_pos hgo, append_assoc, ih (by rw [← append_assoc]; omega)]
    · cases h

/-- The search for a closing quote takes at least the quote. -/
theorem quotedEnd?_ne_zero : quotedEnd? quote cs ≠ some 0 := by
  fun_cases quotedEnd? quote cs <;> simp_all

theorem quotedEnd?_cons (hd : d ≠ '\\') (cs : List Char) :
    quotedEnd? quote (d :: cs) = if d = quote then some 1
      else if isBreak d then none else (quotedEnd? quote cs).map (· + 1) := by
  rw [quotedEnd?.eq_3 quote d cs fun _ _ h => absurd h hd]
  simp [hd]

/-- A quoted literal does not depend on the text behind its closing quote. -/
theorem quotedEnd?_append (hquote : quote ≠ '\\') :
    (u : List Char) → quotedEnd? quote (u ++ z) = some u.length →
      quotedEnd? quote (u ++ z') = some u.length
  | [], h => absurd h quotedEnd?_ne_zero
  | [d], h => by
    by_cases hd : d = '\\'
    · -- a backslash takes another character with it
      subst hd
      cases z with
      | nil => simp [quotedEnd?, hquote.symm] at h
      | cons e z => by_cases he : e = '\n' <;> simp [quotedEnd?, he] at h
    · simp only [cons_append, nil_append, quotedEnd?_cons hd] at h ⊢
      by_cases hq : d = quote
      · rw [if_pos hq, length_singleton]
      · by_cases hbreak : isBreak d = true
        · simp [hq, hbreak] at h
        · simp [hq, hbreak, quotedEnd?_ne_zero] at h
  | d :: e :: u, h => by
    by_cases hd : d = '\\'
    · subst hd
      simp only [cons_append, quotedEnd?, length_cons] at h ⊢
      by_cases he : e = '\n'
      · simp [he] at h
      · simp only [he, if_false, Option.map_eq_some_iff] at h ⊢
        obtain ⟨n, hn, hlen⟩ := h
        obtain rfl : n = u.length := by omega
        exact ⟨_, quotedEnd?_append hquote u hn, rfl⟩
    · rw [cons_append, quotedEnd?_cons hd] at h ⊢
      by_cases hq : d = quote
      · simp [hq] at h
      · by_cases hbreak : isBreak d = true
        · simp [hq, hbreak] at h
        · rw [if_neg hq, if_neg hbreak, Option.map_eq_some_iff] at h ⊢
          obtain ⟨n, hn, hlen⟩ := h
          obtain rfl : n = (e :: u).length := Nat.succ.inj hlen
          exact ⟨_, quotedEnd?_append hquote (e :: u) hn, rfl⟩

/-- A raw string does not depend on the text behind its closing quote. -/
theorem rawEnd?_append (h : rawEnd? (u ++ z) = some u.length) :
    rawEnd? (u ++ z') = some u.length := by
  induction u with
  | nil =>
    cases z with
    | nil => cases h
    | cons d z => by_cases hd : d = '\x60' <;> simp [rawEnd?, hd] at h
  | cons d u ih =>
    simp only [cons_append, rawEnd?, length_cons] at h ⊢
    by_cases hd : d = '\x60'
    · simpa [hd] using h
    · simp only [hd, if_false, Option.map_eq_some_iff] at h ⊢
      obtain ⟨n, hn, hlen⟩ := h
      obtain rfl : n = u.length := by omega
      exact ⟨_, ih hn, rfl⟩

/-! ## Operators -/

/-- A search that finds `a` finds it as well by a stricter test that `a` passes. -/
theorem find?_eq_of_imp {α : Type} {p q : α → Bool} {l : List α} {a : α}
    (h : l.find? p = some a) (himp : ∀ b ∈ l, q b = true → p b = true) (ha : q a = true) :
    l.find? q = some a := by
  induction l with
  | nil => cases h
  | cons b l ih =>
    rw [find?_cons] at h ⊢
    cases hp : p b with
    | true =>
      rw [hp] at h
      cases h
      rw [ha]
    | false =>
      rw [hp] at h
      have hq : q b = false := by
        cases hq : q b with
        | false => rfl
        | true => rw [himp b mem_cons_self hq] at hp; cases hp
      rw [hq]
      exact ih h fun b hb => himp b (mem_cons_of_mem _ hb)

/-- An operator takes at least one character. -/
theorem length_pos_of_operator? (h : operator? cs = some (kind, n)) : 0 < n := by
  have hall : ∀ e ∈ TokenKind.operators, 0 < e.1.length := by decide
  obtain ⟨e, hfind, he⟩ := Option.map_eq_some_iff.1 h
  have := hall e (mem_of_find?_eq_some hfind)
  rwa [(Prod.mk.inj he).2] at this

theorem isStop_of_mem_tail : ∀ e ∈ TokenKind.operators, ∀ d ∈ e.1.toList.tail, isStop d = false := by
  have hall : TokenKind.operators.all (fun e => e.1.toList.tail.all fun d => !isStop d) = true := rfl
  intro e he d hd
  simpa using all_eq_true.1 (all_eq_true.1 hall e he) d hd

/-- A text without a stop, its first character apart, that is found before a stop lies wholly before
it. -/
theorem prefix_of_prefix_stop {s : List Char} (hs : ∀ d ∈ s.tail, isStop d = false)
    (hk : stopsToken k = true) (h : s <+: d :: w ++ k) : s <+: d :: w := by
  by_cases hlen : s.length ≤ (d :: w).length
  · exact prefix_of_prefix_length_le h (prefix_append _ _) hlen
  · cases k with
    | nil => simpa using h
    | cons d' k =>
      have hstop : d :: w ++ [d'] <+: d :: w ++ d' :: k :=
        (prefix_append_right_inj _).2 (prefix_append [d'] k)
      have hlong : (d :: w ++ [d']).length ≤ s.length := by
        rw [length_append, length_singleton]
        omega
      obtain ⟨t, rfl⟩ := prefix_of_prefix_length_le hstop h hlong
      have hmem := hs d' (by simp)
      rw [stopsToken_cons, hmem] at hk
      cases hk

/-- An operator is read as well where the text behind it ends in another way. -/
theorem operator?_stop (h : operator? (c :: (u ++ (x ++ r))) = some (kind, u.length + 1))
    (hk : stopsToken k = true) : operator? (c :: (u ++ (x ++ k))) = some (kind, u.length + 1) := by
  obtain ⟨e, hfind, he⟩ := Option.map_eq_some_iff.1 h
  have hlen : e.1.toList.length = (c :: u).length := by
    rw [String.length_toList]; exact (Prod.mk.inj he).2
  have hfound := find?_some hfind
  have hprefix : e.1.toList <+: c :: u ++ (x ++ r) := isPrefixOf_iff_prefix.1 hfound
  -- the operator that was found is the text before the stop
  have hspelled : e.1.toList = c :: u :=
    (prefix_of_prefix_length_le hprefix (prefix_append _ _)
      (Nat.le_of_eq hlen)).eq_of_length hlen
  refine Option.map_eq_some_iff.2 ⟨e, find?_eq_of_imp hfind ?_ ?_, he⟩
  · intro b hb hpre
    have hwithin : b.1.toList <+: c :: (u ++ x) := by
      refine prefix_of_prefix_stop (isStop_of_mem_tail b hb) hk ?_
      simpa using isPrefixOf_iff_prefix.1 hpre
    refine isPrefixOf_iff_prefix.2 (hwithin.trans ?_)
    simp
  · rw [hspelled, isPrefixOf_iff_prefix]
    exact prefix_append (c :: u) _

/-! ## Tokens before a stop -/

theorem startsComment_stop (h : startsComment c (w ++ r) = false) (hk : stopsToken k = true) :
    startsComment c (w ++ k) = false := by
  cases w with
  | nil =>
    cases k with
    | nil => simp [startsComment]
    | cons d k =>
      rcases isStop_cases hk with rfl | rfl | rfl | rfl | rfl | rfl <;> simp [startsComment]
  | cons d w => exact h

theorem isHex_eq (cs : List Char) :
    isHex cs = (cs[0]? == some '0' && (cs[1]? == some 'x' || cs[1]? == some 'X')) := by
  rcases cs with _ | ⟨a, _ | ⟨b, cs⟩⟩
  · rfl
  · simp [isHex]
  · by_cases ha : a = '0'
    · by_cases hx : b = 'x'
      · simp [isHex, ha, hx]
      · by_cases hX : b = 'X' <;> simp [isHex, ha, hx, hX]
    · simp [isHex, ha]

/-- Only the mark of hexadecimal notation makes a number hexadecimal. -/
theorem isHex_append_take (hhead : head ≠ []) (hr : r.head? ≠ some 'x' ∧ r.head? ≠ some 'X') :
    isHex (head ++ r.take 1) = isHex head := by
  rcases head with _ | ⟨a, _ | ⟨b, head⟩⟩
  · exact absurd rfl hhead
  · cases r with
    | nil => rfl
    | cons d r =>
      have hx : d ≠ 'x' := fun hd => hr.1 (congrArg some hd)
      have hX : d ≠ 'X' := fun hd => hr.2 (congrArg some hd)
      simp [isHex_eq, hx, hX]
  · simp [isHex_eq]

/-- Whether a number is hexadecimal shows in its own text. -/
theorem isHex_stop (prev : Char) (hhead : head ≠ [])
    (h : w = [] → numberTail (isHex (head ++ r.take 1)) prev r = 0) (hk : stopsToken k = true) :
    isHex (head ++ (w ++ k).take 1) = isHex (head ++ (w ++ r).take 1) := by
  cases w with
  | cons d w => rfl
  | nil =>
    have hstop := h rfl
    -- the mark of hexadecimal notation would have continued the number
    have hr : r.head? ≠ some 'x' ∧ r.head? ≠ some 'X' := by
      cases r with
      | nil => simp
      | cons d r =>
        refine ⟨?_, ?_⟩ <;> rintro hd <;> cases hd <;>
          simp [numberTail_cons, continuesNumber, Char.isAlphanum, Char.isAlpha, Char.isUpper,
            Char.isLower] at hstop
    have hk' : k.head? ≠ some 'x' ∧ k.head? ≠ some 'X' := by
      cases k with
      | nil => simp
      | cons d k => rcases isStop_cases hk with rfl | rfl | rfl | rfl | rfl | rfl <;> simp
    rw [nil_append, nil_append, isHex_append_take hhead hk', isHex_append_take hhead hr]

/-- A number is read as well where the text behind it ends in another way. -/
theorem number_stop (hhead : head ≠ []) (h : number head (u ++ (x ++ r)) = (kind, u.length))
    (hr : r.head? ≠ some '.') (hk : stopsToken k = true) :
    number head (u ++ (x ++ k)) = (kind, u.length) := by
  obtain ⟨hkind, htail⟩ := Prod.mk.inj h
  have hhex : isHex (head ++ (u ++ (x ++ k)).take 1)
      = isHex (head ++ (u ++ (x ++ r)).take 1) := by
    rw [← append_assoc, ← append_assoc]
    refine isHex_stop (head.getLast?.getD '0') hhead (fun hnil => ?_) hk
    obtain ⟨rfl, rfl⟩ := append_eq_nil_iff.1 hnil
    exact htail
  have htail' := numberTail_stop htail hr hk
  simp only [number, hhex, htail', Prod.mk.injEq, and_true]
  rw [← hkind, htail, take_left, take_left]

theorem tokenAt_stop (h : tokenAt c (u ++ (x ++ r)) = .ok (kind, u.length))
    (hr : r.head? ≠ some '.') (hk : stopsToken k = true) :
    tokenAt c (u ++ (x ++ k)) = .ok (kind, u.length) := by
  unfold tokenAt at h ⊢
  by_cases hword : startsIdent c = true
  · simp only [hword, if_true, Except.ok.injEq, Prod.mk.injEq] at h ⊢
    obtain ⟨hkind, hlen⟩ := h
    obtain ⟨hall, hstop⟩ := length_takeWhile_append.1 hlen
    have hstop' : (x ++ k).head?.any continuesIdent = false := by
      cases x with
      | nil =>
        refine head?_any_of_stops (fun d hd => ?_) hk
        rcases isStop_cases hd with rfl | rfl | rfl | rfl | rfl | rfl <;> decide
      | cons d x => exact hstop
    rw [takeWhile_append_of_all hall hstop] at hkind
    rw [takeWhile_append_of_all hall hstop']
    exact ⟨hkind, rfl⟩
  rw [if_neg hword] at h ⊢
  by_cases hdigit : c.isDigit = true
  · rw [if_pos hdigit] at h ⊢
    exact congrArg Except.ok (number_stop (cons_ne_nil _ _) (Except.ok.inj h) hr hk)
  rw [if_neg hdigit] at h ⊢
  by_cases hpoint : (c = '.' && (u ++ (x ++ r)).head?.any Char.isDigit) = true
  · -- a point with a digit behind it: that digit is part of the number
    rw [if_pos hpoint] at h
    cases u with
    | nil => cases h
    | cons d u =>
      have hpoint' : (c = '.' && (d :: u ++ (x ++ k)).head?.any Char.isDigit) = true := hpoint
      rw [if_pos hpoint']
      obtain ⟨hkind, hlen⟩ := Prod.mk.inj (Except.ok.inj h)
      have hnumber : number [c, d] (u ++ (x ++ r)) = (kind, u.length) :=
        Prod.ext hkind (Nat.succ.inj hlen)
      have hnumber' := number_stop (cons_ne_nil _ _) hnumber hr hk
      simp only [cons_append, take_succ_cons, take_zero, drop_succ_cons,
        drop_zero, hnumber', length_cons]
  · rw [if_neg hpoint] at h
    have hpoint' : ¬(c = '.' && (u ++ (x ++ k)).head?.any Char.isDigit) = true := by
      rw [← append_assoc] at hpoint ⊢
      generalize u ++ x = w at hpoint ⊢
      cases w with
      | nil =>
        have hdigit' : k.head?.any Char.isDigit = false := by
          refine head?_any_of_stops (fun d hd => ?_) hk
          rcases isStop_cases hd with rfl | rfl | rfl | rfl | rfl | rfl <;> rfl
        simp [hdigit']
      | cons d w => exact hpoint
    rw [if_neg hpoint']
    by_cases hchar : c = '\x27'
    · rw [if_pos hchar] at h ⊢
      cases hend : quotedEnd? c (u ++ (x ++ r)) with
      | none => simp [hend] at h
      | some n =>
        by_cases hn : n = 1
        · simp [hend, hn] at h
        · simp only [hend, hn, if_false, Except.ok.injEq, Prod.mk.injEq] at h
          obtain ⟨rfl, rfl⟩ := h
          have hquote : c ≠ '\\' := by rw [hchar]; decide
          rw [quotedEnd?_append hquote u hend]
          simp [hn]
    rw [if_neg hchar] at h ⊢
    by_cases hstring : c = '\x22'
    · rw [if_pos hstring] at h ⊢
      cases hend : quotedEnd? c (u ++ (x ++ r)) with
      | none => simp [hend] at h
      | some n =>
        simp only [hend, Except.ok.injEq, Prod.mk.injEq] at h
        obtain ⟨rfl, rfl⟩ := h
        have hquote : c ≠ '\\' := by rw [hstring]; decide
        rw [quotedEnd?_append hquote u hend]
    rw [if_neg hstring] at h ⊢
    by_cases hraw : c = '\x60'
    · rw [if_pos hraw] at h ⊢
      cases hend : rawEnd? (u ++ (x ++ r)) with
      | none => simp [hend] at h
      | some n =>
        simp only [hend, Except.ok.injEq, Prod.mk.injEq] at h
        obtain ⟨rfl, rfl⟩ := h
        rw [rawEnd?_append hend]
    rw [if_neg hraw] at h ⊢
    cases hop : operator? (c :: (u ++ (x ++ r))) with
    | none => simp [hop] at h
    | some found =>
      obtain ⟨kind', n⟩ := found
      simp only [hop, Except.ok.injEq, Prod.mk.injEq] at h
      obtain ⟨rfl, hlen⟩ := h
      obtain rfl : n = u.length + 1 := by
        have := length_pos_of_operator? hop
        omega
      rw [operator?_stop hop hk]
      rfl

/-- A token that was read before some text is read as well where that text ends in another way. -/
theorem scan_token_stop (h : scan c (u ++ (x ++ r)) = .ok (.token kind, u.length))
    (hr : r.head? ≠ some '.') (hk : stopsToken k = true) :
    scan c (u ++ (x ++ k)) = .ok (.token kind, u.length) := by
  obtain ⟨hink, hcomment, htoken⟩ := tokenAt_of_scan h
  have hcomment' : startsComment c (u ++ (x ++ k)) = false := by
    rw [← append_assoc] at hcomment ⊢
    exact startsComment_stop hcomment hk
  rw [scan_eq_tokenAt hink hcomment', tokenAt_stop htoken hr hk]
  rfl

/-! ## Lexemes that are no tokens before more text -/

theorem blockCommentEnd?_bounds (h : blockCommentEnd? cs = some n) : 2 ≤ n ∧ n ≤ cs.length := by
  induction cs using blockCommentEnd?.induct generalizing n with
  | case1 cs => cases h; simp
  | case2 d cs hmark ih =>
    rw [blockCommentEnd?.eq_2 d cs hmark, Option.map_eq_some_iff] at h
    obtain ⟨m, hm, rfl⟩ := h
    have := ih hm
    rw [length_cons]
    omega
  | case3 => cases h

theorem blockCommentEnd?_append (h : blockCommentEnd? (u ++ z) = some u.length) :
    blockCommentEnd? (u ++ z') = some u.length := by
  induction u with
  | nil => exact absurd (blockCommentEnd?_bounds h).1 (by simp)
  | cons d u ih =>
    cases u with
    | nil => exact absurd (blockCommentEnd?_bounds h).1 (by simp)
    | cons e u =>
      by_cases hmark : d = '*' ∧ e = '/'
      · obtain ⟨rfl, rfl⟩ := hmark
        exact h
      · have hno : ∀ v tail, d = '*' → e :: u ++ v = '/' :: tail → False := by
          rintro v tail rfl hv
          exact hmark ⟨rfl, (List.cons.inj hv).1⟩
        rw [cons_append, blockCommentEnd?.eq_2 _ _ (hno _), Option.map_eq_some_iff] at h ⊢
        obtain ⟨m, hm, hlen⟩ := h
        obtain rfl : m = (e :: u).length := Nat.succ.inj hlen
        exact ⟨_, ih hm, rfl⟩

/-- A lexeme that is no token does not depend on the text behind the character that follows it. -/
theorem scan_trivia_append (hcls : ∀ kind, cls ≠ .token kind)
    (h : scan c (u ++ d :: z) = .ok (cls, u.length)) :
    scan c (u ++ d :: z') = .ok (cls, u.length) := by
  rcases scan_cases h with ⟨rfl, hc, hn⟩ | ⟨rfl, hc, hn⟩ | ⟨rfl, rfl, hn⟩ | ⟨rfl, rfl, cs', hcs, hn⟩ |
    ⟨rfl, rfl, cs', m, hcs, hend, hn⟩ | ⟨kind, rfl, -⟩
  · obtain ⟨hall, hstop⟩ := length_takeWhile_append.1 hn.symm
    rw [scan_space hc, takeWhile_append_of_all hall (z := d :: z') hstop]
  · rw [scan_break hc, hn]
    cases u with
    | nil => rfl
    | cons e u => rfl
  · rw [hn]
    exact scan_byteOrderMark _
  · cases u with
    | nil => cases hn
    | cons e u =>
      obtain ⟨rfl, rfl⟩ := List.cons.inj hcs
      obtain ⟨hall, hstop⟩ := length_takeWhile_append.1 (Nat.succ.inj hn).symm
      rw [cons_append, scan_lineComment, takeWhile_append_of_all hall (z := d :: z') hstop]
      rfl
  · cases u with
    | nil => cases hn
    | cons e u =>
      obtain ⟨rfl, rfl⟩ := List.cons.inj hcs
      obtain rfl : m = u.length := (Nat.succ.inj hn).symm
      rw [cons_append, scan_blockComment, blockCommentEnd?_append hend]
      rfl
  · exact absurd rfl (hcls kind)

/-! ## A lexeme is part of the text -/

theorem quotedEnd?_le (h : quotedEnd? quote cs = some n) : n ≤ cs.length := by
  induction cs using quotedEnd?.induct quote generalizing n with
  | case1 => cases h
  | case2 cs => simp [quotedEnd?] at h
  | case3 d cs hd ih =>
    rw [quotedEnd?, if_neg hd, Option.map_eq_some_iff] at h
    obtain ⟨m, hm, rfl⟩ := h
    exact Nat.add_le_add_right (ih hm) 2
  | case4 cs hmark =>
    rw [quotedEnd?.eq_3 _ _ _ hmark, if_pos rfl] at h
    cases h
    simp
  | case5 d cs hmark hd hbreak =>
    rw [quotedEnd?.eq_3 _ _ _ hmark, if_neg hd, if_pos hbreak] at h
    cases h
  | case6 d cs hmark hd hbreak ih =>
    rw [quotedEnd?.eq_3 _ _ _ hmark, if_neg hd, if_neg hbreak, Option.map_eq_some_iff] at h
    obtain ⟨m, hm, rfl⟩ := h
    exact Nat.add_le_add_right (ih hm) 1

theorem rawEnd?_le (h : rawEnd? cs = some n) : n ≤ cs.length := by
  induction cs generalizing n with
  | nil => cases h
  | cons d cs ih =>
    rw [rawEnd?] at h
    split at h
    · cases h
      simp
    · obtain ⟨m, hm, rfl⟩ := Option.map_eq_some_iff.1 h
      exact Nat.add_le_add_right (ih hm) 1

theorem numberTail_le (hex : Bool) (prev : Char) (cs : List Char) :
    numberTail hex prev cs ≤ cs.length := by
  induction cs generalizing prev with
  | nil => exact Nat.le_refl _
  | cons d cs ih =>
    rw [numberTail_cons]
    split
    · exact Nat.add_le_add_right (ih d) 1
    · exact Nat.zero_le _

theorem operator?_le (h : operator? cs = some (kind, n)) : n ≤ cs.length := by
  obtain ⟨e, hfind, he⟩ := Option.map_eq_some_iff.1 h
  have hprefix := find?_some hfind
  rw [← (Prod.mk.inj he).2, ← String.length_toList]
  exact (List.isPrefixOf_iff_prefix.1 hprefix).length_le

theorem tokenAt_le (h : tokenAt c cs = .ok (kind, n)) : n ≤ cs.length := by
  unfold tokenAt at h
  split at h
  · cases h
    exact (List.takeWhile_prefix _).length_le
  split at h
  · cases h
    exact numberTail_le _ _ _
  split at h
  · rename_i hpoint
    cases cs with
    | nil => simp at hpoint
    | cons d cs =>
      cases h
      exact Nat.succ_le_succ (numberTail_le _ _ _)
  split at h
  · split at h
    · rename_i m hm
      split at h
      · cases h
      · cases h
        exact quotedEnd?_le hm
    · cases h
  split at h
  · split at h
    · rename_i m hm
      cases h
      exact quotedEnd?_le hm
    · cases h
  split at h
  · split at h
    · rename_i m hm
      cases h
      exact rawEnd?_le hm
    · cases h
  · split at h
    · rename_i m hm
      cases h
      have := operator?_le hm
      rw [length_cons] at this
      omega
    · cases h

/-- A lexeme takes no more characters than there are. -/
theorem scan_le (h : scan c cs = .ok (cls, n)) : n ≤ cs.length := by
  rcases scan_cases h with ⟨-, -, rfl⟩ | ⟨-, -, rfl⟩ | ⟨-, -, rfl⟩ | ⟨-, -, cs', rfl, rfl⟩ |
    ⟨-, -, cs', m, rfl, hend, rfl⟩ | ⟨kind, -, -, -, htoken⟩
  · exact (List.takeWhile_prefix _).length_le
  · split
    · rename_i hfeed
      cases cs with
      | nil => simp at hfeed
      | cons d cs => simp
    · exact Nat.zero_le _
  · exact Nat.zero_le _
  · exact Nat.succ_le_succ (List.takeWhile_prefix _).length_le
  · exact Nat.succ_le_succ (blockCommentEnd?_bounds hend).2
  · exact tokenAt_le htoken

/-! ## Tokens by their kind -/

theorem numberKind_mem (text : List Char) :
    numberKind text ∈ [TokenKind.intLit, .floatLit, .imagLit, .charLit] := by
  unfold numberKind
  split_ifs <;> simp

theorem tokenAt_cases (h : tokenAt c cs = .ok (kind, n)) :
    (startsIdent c = true ∧ kind = wordKind (c :: cs.takeWhile continuesIdent) ∧
      n = (cs.takeWhile continuesIdent).length) ∨
    kind ∈ [TokenKind.intLit, .floatLit, .imagLit, .charLit] ∨
    (kind = .stringLit ∧ c = '\x22' ∧ quotedEnd? c cs = some n) ∨
    (kind = .rawStringLit ∧ c = '\x60' ∧ rawEnd? cs = some n) ∨
    ∃ e ∈ TokenKind.operators, e.2 = kind ∧ e.1.toList <+: c :: cs ∧ n + 1 = e.1.length := by
  unfold tokenAt at h
  split_ifs at h with hword hdigit hpoint hchar hstring hraw
  · cases h
    exact .inl ⟨hword, rfl, rfl⟩
  · cases h
    exact .inr (.inl (numberKind_mem _))
  · cases h
    exact .inr (.inl (numberKind_mem _))
  · split at h
    · split at h
      · cases h
      · cases h
        exact .inr (.inl (by simp))
    · cases h
  · split at h
    · rename_i m hm
      cases h
      exact .inr (.inr (.inl ⟨rfl, hstring, hm⟩))
    · cases h
  · split at h
    · rename_i m hm
      cases h
      exact .inr (.inr (.inr (.inl ⟨rfl, hraw, hm⟩)))
    · cases h
  · split at h
    · rename_i kind' m hm
      cases h
      have hpos := length_pos_of_operator? hm
      obtain ⟨e, hfind, he⟩ := Option.map_eq_some_iff.1 hm
      obtain ⟨hkind, hlen⟩ := Prod.mk.inj he
      have hprefix := find?_some hfind
      exact .inr (.inr (.inr (.inr ⟨e, mem_of_find?_eq_some hfind, hkind,
        isPrefixOf_iff_prefix.1 hprefix, by omega⟩)))
    · cases h

theorem wordKind_cases (text : List Char) :
    wordKind text = .ident ∨ ∃ e ∈ TokenKind.keywords, e.2 = wordKind text := by
  rw [wordKind]
  cases hlookup : TokenKind.keywords.lookup (String.ofList text) with
  | none => exact .inl rfl
  | some kind =>
    obtain ⟨before, after, heq, -⟩ := lookup_eq_some_iff.1 hlookup
    exact .inr ⟨(String.ofList text, kind), by rw [heq]; simp, rfl⟩

/-- A token that is no word, number or character. -/
theorem token_cases (h : scan c cs = .ok (.token kind, n))
    (hkeyword : ∀ e ∈ TokenKind.keywords, e.2 ≠ kind) (hident : kind ≠ .ident)
    (hnumber : kind ∉ [TokenKind.intLit, .floatLit, .imagLit, .charLit]) :
    (kind = .stringLit ∧ c = '\x22' ∧ quotedEnd? c cs = some n) ∨
    (kind = .rawStringLit ∧ c = '\x60' ∧ rawEnd? cs = some n) ∨
    ∃ e ∈ TokenKind.operators, e.2 = kind ∧ e.1.toList <+: c :: cs ∧ n + 1 = e.1.length := by
  rcases tokenAt_cases (tokenAt_of_scan h).2.2 with ⟨-, hword, -⟩ | hmem | hrest
  · rcases wordKind_cases (c :: cs.takeWhile continuesIdent) with heq | ⟨e, he, heq⟩
    · exact absurd (hword.trans heq) hident
    · exact absurd (heq.trans hword.symm) (hkeyword e he)
  · exact absurd hmem hnumber
  · exact hrest

end Stubwright.Lexeme
