import Stubwright.Proofs.Tidy

/-!
# Settling a layout keeps the tokens

Dropping blanks at the ends of lines and blank lines changes what is skipped between tokens, and
nothing else: a token is written as it stands, a comment stays a comment, and a line break that ends
a statement is not lost.  The argument follows the text lexeme by lexeme.  A token is read in the
same way again because what follows it is the same up to the next blank or line break.

* `exists_cut_tidy`: the settled form has the entries of the text.
-/

namespace Stubwright.Layout

open List

open Lexeme

variable {p : Place} {held : List Char} {m : List Marked} {d : Char} {v text u : List Char}

/-! ## What follows a token -/

/-- A blank or a line feed, the characters that may be dropped or put in. -/
def isMovable (d : Char) : Bool :=
  d = '\n' || isTrimmed d

theorem isMovable_cases (h : isMovable d = true) : d = '\n' ∨ d = ' ' ∨ d = '\t' := by
  simpa [isMovable, isTrimmed] using h

/-- Where a line is under way, held blanks are followed by more of the line or by its end. -/
theorem head?_tidy_inside (c : Char) (held : List Char) (m : List Marked) :
    (tidy .inside (c :: held) m).head? = some (c, false) ∨
      (tidy .inside (c :: held) m).head? = some ('\n', false) := by
  induction m generalizing held with
  | nil => exact .inr rfl
  | cons x m ih =>
    rcases stays_cases x with hx | rfl | ⟨d, hd, rfl⟩
    · rw [tidy_stays hx]
      exact .inl rfl
    · rw [tidy_newline]
      exact .inr rfl
    · rw [tidy_blank hd]
      exact ih _

/-- What is written of a line that is under way agrees with what stood there up to a blank or a line
feed, or to the end of the text. -/
theorem tidy_ahead (m : List Marked) : ∃ w r k, chars m = w ++ r ∧
    chars (tidy .inside [] m) = w ++ k ∧ r.head?.all isMovable = true ∧
    k.head?.any isMovable = true := by
  induction m with
  | nil => exact ⟨[], [], ['\n'], rfl, rfl, rfl, rfl⟩
  | cons x m ih =>
    rcases stays_cases x with hx | rfl | ⟨d, hd, rfl⟩
    · obtain ⟨w, r, k, hm, htidy, hr, hk⟩ := ih
      refine ⟨x.1 :: w, r, k, by rw [chars_cons, hm]; rfl, ?_, hr, hk⟩
      rw [tidy_stays hx]
      exact congrArg (x.1 :: ·) htidy
    · refine ⟨[], chars (('\n', false) :: m), '\n' :: chars (tidy .fresh [] m), rfl, ?_, rfl, rfl⟩
      rw [tidy_newline]
      rfl
    · have hmovable : isMovable d = true := by simp [isMovable, hd]
      refine ⟨[], d :: chars m, chars (tidy .inside [d] m), rfl, ?_, hmovable, ?_⟩
      · rw [tidy_blank hd]
        rfl
      · rw [chars, head?_map]
        rcases head?_tidy_inside d [] m with h | h <;> rw [h]
        · exact hmovable
        · rfl

/-- A token is read again before what is written behind it. -/
theorem scan_tidy {c : Char} {kind : TokenKind}
    (h : scan c (v ++ chars m) = .ok (.token kind, v.length)) :
    scan c (v ++ chars (tidy .inside [] m)) = .ok (.token kind, v.length) := by
  obtain ⟨w, r, k, hm, htidy, hr, hk⟩ := tidy_ahead m
  rw [hm] at h
  rw [htidy]
  refine scan_token_stop h ?_ ?_
  · intro hpoint
    rw [hpoint] at hr
    cases hr
  · cases k with
    | nil => cases hk
    | cons d k =>
      rw [stopsToken_cons]
      rcases isMovable_cases hk with rfl | rfl | rfl <;> rfl

theorem isSpace_of_isTrimmed (h : isTrimmed d = true) : isSpace d = true := by
  rw [isSpace]
  rw [isTrimmed] at h
  rw [h, Bool.true_or]

theorem isTrimmed_eq_false (h : isSpace d = false) : isTrimmed d = false := by
  by_contra htrimmed
  rw [isSpace_of_isTrimmed (by simpa using htrimmed)] at h
  cases h

/-- A text within one line is written as it stands if it does not end in a blank, and so is any part
of a raw literal. -/
theorem tidy_text {b : Bool} (htext : text = u ++ [d])
    (h : b = true ∨ '\n' ∉ text ∧ isTrimmed d = false) :
    tidy p held (text.map (·, b) ++ m)
      = plain (p.opening ++ held) ++ (text.map (·, b) ++ tidy .inside [] m) := by
  have hu : ('\n', false) ∉ u.map (·, b) := by
    rintro hmem
    obtain ⟨c, hc, heq⟩ := mem_map.1 hmem
    obtain ⟨rfl, rfl⟩ := Prod.mk.inj heq
    rcases h with h | ⟨hfeed, -⟩
    · cases h
    · exact hfeed (by rw [htext]; exact mem_append_left _ hc)
  have hd : stays (d, b) = true := by
    rcases h with rfl | ⟨hfeed, htrimmed⟩
    · rfl
    · have hne : d ≠ '\n' := by
        rintro rfl
        exact hfeed (by rw [htext]; simp)
      simp [stays, hne, htrimmed]
  rw [htext, map_append, append_assoc, map_singleton, singleton_append,
    tidy_line hu hd]
  simp

/-! ## Comments -/

theorem comment_append {t : List Char} (ht : t.all isMovable = true)
    (h : blockCommentEnd? v = some v.length) :
    blockCommentEnd? (t ++ v) = some (t ++ v).length := by
  induction t with
  | nil => exact h
  | cons c t ih =>
    obtain ⟨hc, ht⟩ := (Bool.and_eq_true _ _).mp ht
    refine comment_cons ?_ (ih ht)
    rintro ⟨rfl, -⟩
    cases hc

theorem head?_of_tidy (h : (chars (tidy .inside [] m)).head? = some d) (hd : isMovable d = false) :
    (chars m).head? = some d := by
  obtain ⟨w, r, k, hm, htidy, -, hk⟩ := tidy_ahead m
  rw [htidy] at h
  rw [hm]
  cases w with
  | nil =>
    rw [nil_append] at h
    rw [h] at hk
    rw [Option.any_some, hd] at hk
    cases hk
  | cons e w => exact h

theorem movable_opening (hheld : held.all isTrimmed = true) (p : Place) :
    (p.opening ++ held).all isMovable = true := by
  have hall : held.all isMovable = true := by
    rw [all_eq_true] at hheld ⊢
    exact fun d hd => by simp [isMovable, hheld d hd]
  rw [all_append, hall, Bool.and_true]
  cases p <;> rfl

theorem all_isSpace (h : text.all isTrimmed = true) : text.all isSpace = true :=
  all_eq_true.2 fun d hd => isSpace_of_isTrimmed (all_eq_true.1 h d hd)

theorem hasBreak_of_isTrimmed (h : text.all isTrimmed = true) : hasBreak text = false :=
  hasBreak_of_isSpace (all_isSpace h)

/-- A text without the blanks at its end ends, behind something that is no blank, in something that
is no blank. -/
theorem exists_trimmed (u : List Char) : ∃ v blanks, u = v ++ blanks ∧ blanks.all isTrimmed = true ∧
    ∀ c, isTrimmed c = false → ∃ w d, c :: v = w ++ [d] ∧ isTrimmed d = false := by
  induction u using List.reverseRecOn with
  | nil => exact ⟨[], [], rfl, rfl, fun c hc => ⟨[], c, rfl, hc⟩⟩
  | append_singleton u e ih =>
    cases he : isTrimmed e with
    | true =>
      obtain ⟨v, blanks, rfl, hblanks, hv⟩ := ih
      exact ⟨v, blanks ++ [e], by simp, by simp [hblanks, he], hv⟩
    | false => exact ⟨u ++ [e], [], by simp, rfl, fun c _ => ⟨c :: u, e, rfl, he⟩⟩

/-- A comment between its marks is written as such a comment. -/
theorem tidy_comment (h : blockCommentEnd? u = some u.length) (hheld : held.all isTrimmed = true)
    (m : List Marked) :
    ∃ u', tidy p held (plain u ++ m) = plain u' ++ tidy .inside [] m ∧
      blockCommentEnd? u' = some u'.length ∧
      (p = .inside → hasBreak u' = hasBreak u ∧ (hasBreak u = false → u' = held ++ u)) := by
  induction u generalizing p held with
  | nil => cases h
  | cons c u ih =>
    have hmovable := movable_opening hheld p
    have hno := hasBreak_of_isTrimmed hheld
    have hnone : ([] : List Char).all isTrimmed = true := rfl
    rcases comment_cases h with hu | ⟨c, v, hu, hmark, hv⟩
    · refine ⟨p.opening ++ held ++ ['*', '/'], ?_, comment_append hmovable rfl, ?_⟩
      · rw [hu, plain, map_cons, cons_append, tidy_stays rfl, map_cons,
          cons_append, tidy_stays rfl]
        simp [Place.opening]
      · rintro rfl
        rw [hu, hasBreak_append, hasBreak_append, hno]
        exact ⟨rfl, fun _ => rfl⟩
    · obtain ⟨rfl, rfl⟩ := List.cons.inj hu
      rcases stays_cases (c, false) with hc | hc | ⟨d, hd, hc⟩
      · obtain ⟨v', htidy, hend, hinside⟩ := ih (p := .inside) hv hnone
        obtain ⟨hbreak, hsame⟩ := hinside rfl
        -- no end mark arises: a stroke behind the star was there before
        have hmark' : ¬(c = '*' ∧ v'.head? = some '/') := by
          rintro ⟨rfl, hslash⟩
          have hhead : (chars (tidy .inside [] (plain u ++ m))).head? = some '/' := by
            rw [htidy, chars_append, chars_map, head?_append, hslash]
            rfl
          have hhead' := head?_of_tidy hhead rfl
          rw [chars_append, chars_map, head?_append] at hhead'
          cases u with
          | nil => cases hv
          | cons d u => exact hmark ⟨rfl, hhead'⟩
        refine ⟨p.opening ++ held ++ c :: v', ?_, comment_append hmovable (comment_cons hmark' hend), ?_⟩
        · rw [plain, map_cons, cons_append, tidy_stays hc, htidy]
          simp
        · rintro rfl
          rw [hasBreak_append, hasBreak_append, hno, hasBreak_cons_eq, hasBreak_cons_eq, hbreak]
          refine ⟨rfl, fun hcv => ?_⟩
          rw [hsame (Bool.or_eq_false_iff.1 hcv).2]
          rfl
      · cases hc
        obtain ⟨v', htidy, hend, -⟩ := ih (p := p.next) hv hnone
        refine ⟨p.lineEnd ++ v', ?_, comment_append (by cases p <;> rfl) hend, ?_⟩
        · rw [plain, map_cons, cons_append, tidy_newline, htidy]
          simp
        · rintro rfl
          rw [hasBreak_cons rfl]
          exact ⟨rfl, fun hfalse => absurd hfalse (by decide)⟩
      · cases hc
        have hheld' : (held ++ [c]).all isTrimmed = true := by simp [hheld, hd]
        obtain ⟨v', htidy, hend, hinside⟩ := ih (p := p) hv hheld'
        refine ⟨v', ?_, hend, fun hp => ?_⟩
        · rw [plain, map_cons, cons_append, tidy_blank hd, htidy]
        · have hcv : hasBreak (c :: u) = hasBreak u := by
            have hc : hasBreak [c] = false := hasBreak_of_isTrimmed (by simp [hd])
            rw [← singleton_append, hasBreak_append, hc, Bool.false_or]
          obtain ⟨hbreak, hsame⟩ := hinside hp
          rw [hcv]
          exact ⟨hbreak, fun hfalse => by rw [hsame hfalse, append_assoc]; rfl⟩

/-! ## Entries -/

/-- Where the settled text stands against the text it comes from.  Blank lines are dropped only
behind a statement that is closed and behind a line break, and what is skipped is the same up to held
blanks until there is a line break in it. -/
structure Aligned (start open_ : Bool) (lead : List Char) (start' : Bool) (p : Place)
    (held lead' : List Char) : Prop where
  mark : start = true → start' = true ∧ p = .top ∧ held = []
  closed : p ≠ .inside → open_ = false
  broken : p ≠ .inside → hasBreak lead = true ∧ hasBreak lead' = true
  blanks : held.all isTrimmed = true
  same : SameLead lead (lead' ++ held)

section

variable {start open_ start' : Bool} {lead lead' : List Char} {es : List Entry}

theorem Aligned.inside (h : SameLead lead lead') :
    Aligned false open_ lead start' .inside [] lead' where
  mark := by simp
  closed := fun hp => absurd rfl hp
  broken := fun hp => absurd rfl hp
  blanks := rfl
  same := by rwa [append_nil]

/-- What is skipped stays the same as far as it is written. -/
theorem Aligned.lead_same (h : Aligned start open_ lead start' p held lead') (text : List Char) :
    SameLead (lead ++ text) (lead' ++ (p.opening ++ held) ++ text) := by
  refine SameLead.append ?_ text
  by_cases hp : p = .inside
  · subst hp
    exact h.same
  · obtain ⟨hbreak, hbreak'⟩ := h.broken hp
    exact .inr ⟨hbreak, by rw [hasBreak_append, hbreak', Bool.true_or]⟩

/-- A blank line and held blanks are skipped. -/
theorem Aligned.emit (h : Aligned start open_ lead start' p held lead')
    (hrest : Lexes false open_ (lead' ++ (p.opening ++ held)) m es) :
    Lexes start' open_ lead' (plain (p.opening ++ held) ++ m) es := by
  have hspace := all_isSpace h.blanks
  refine Lexes.of_false ?_
  cases p with
  | gap =>
    obtain rfl := h.closed (by decide)
    refine .newlineAgain rfl (.blanks hspace ?_)
    rw [append_assoc]
    exact hrest
  | _ => exact .blanks hspace hrest

end

/-- Marked characters have the given entries up to what is skipped once they are settled, wherever
on the page they stand. -/
def Settles (start open_ : Bool) (lead : List Char) (m : List Marked) (es : List Entry) : Prop :=
  ∀ ⦃start' : Bool⦄ ⦃p : Place⦄ ⦃held lead' : List Char⦄,
    Aligned start open_ lead start' p held lead' →
      ∃ es', Lexes start' open_ lead' (tidy p held m) es' ∧ List.Forall₂ (Entry.Relaid id) es es'

namespace Settles

variable {start open_ : Bool} {lead : List Char} {es : List Entry} {c : Char}

theorem nil : Settles start open_ lead [] (if open_ then [⟨.semi, lead, []⟩] else []) := by
  intro start' p held lead' h
  cases hp : p with
  | inside =>
    have hrest : Lexes false (open_ && !hasBreak ['\n']) (leadAfter open_ lead' ['\n']) []
        (if open_ && !hasBreak ['\n'] then [⟨.semi, leadAfter open_ lead' ['\n'], []⟩] else []) := .nil
    refine ⟨_, .newline rfl hrest, ?_⟩
    rw [hasBreak_cons rfl, Bool.not_true, Bool.and_false, insertedBy_cons rfl]
    cases open_ with
    | true => exact .cons (.semi ..) .nil
    | false => exact .nil
  | _ =>
    obtain rfl := h.closed (by simp [hp])
    exact ⟨_, .nil, .nil⟩

theorem blank (hc : isSpace c = true) (h : Settles false open_ (lead ++ [c]) m es) :
    Settles start open_ lead ((c, false) :: m) es := by
  intro start' p held lead' halign
  cases htrimmed : isTrimmed c with
  | true =>
    rw [tidy_blank htrimmed]
    refine h ⟨by simp, halign.closed, ?_, ?_, ?_⟩
    · intro hp
      obtain ⟨hbreak, hbreak'⟩ := halign.broken hp
      exact ⟨by rw [hasBreak_append, hbreak, Bool.true_or], hbreak'⟩
    · simp [halign.blanks, htrimmed]
    · rw [← append_assoc]
      exact halign.same.append [c]
  | false =>
    have hfeed : c ≠ '\n' := by
      rintro rfl
      cases hc
    rw [tidy_stays (by simp [stays, htrimmed, hfeed])]
    obtain ⟨es', hes', hrelaid⟩ := h (.inside (halign.lead_same [c]))
    exact ⟨es', halign.emit (.blank hc hes'), hrelaid⟩

theorem newline (hc : isBreak c = true)
    (h : Settles false (open_ && !hasBreak [c]) (leadAfter open_ lead [c]) m es) :
    Settles start open_ lead ((c, false) :: m) (insertedBy open_ lead [c] ++ es) := by
  intro start' p held lead' halign
  have hbreak : ∀ open_ text, hasBreak (leadAfter open_ text [c]) = true := by
    intro open_ text
    rw [leadAfter_cons hc, hasBreak_append, hasBreak_cons hc, Bool.or_true]
  by_cases hfeed : c = '\n'
  · subst hfeed
    rw [tidy_newline]
    by_cases hp : p = .inside
    · subst hp
      have hnext : Aligned false (open_ && !hasBreak ['\n']) (leadAfter open_ lead ['\n']) false
          .fresh [] (leadAfter open_ lead' ['\n']) :=
        ⟨by simp, fun _ => by rw [hasBreak_cons hc, Bool.not_true, Bool.and_false],
          fun _ => ⟨hbreak _ _, hbreak _ _⟩, rfl,
          .inr ⟨hbreak _ _, by rw [append_nil, hbreak]⟩⟩
      obtain ⟨es', hes', hrelaid⟩ := h hnext
      exact ⟨_, .newline rfl hes', rel_append (relaid_insertedBy rfl) hrelaid⟩
    · obtain rfl := halign.closed hp
      obtain ⟨-, hbreak'⟩ := halign.broken hp
      have hnext : Aligned false (false && !hasBreak ['\n']) (leadAfter false lead ['\n']) start'
          p.next [] lead' :=
        ⟨by simp, fun _ => rfl, fun _ => ⟨hbreak _ _, hbreak'⟩, rfl,
          .inr ⟨hbreak _ _, by rwa [append_nil]⟩⟩
      have hend : p.lineEnd = [] := by
        cases p with
        | inside => exact absurd rfl hp
        | _ => rfl
      rw [hend]
      exact h hnext
  · have hstays : stays (c, false) = true := by
      simp [stays, hfeed, isTrimmed_eq_false (isSpace_eq_false_of_isBreak hc)]
    rw [tidy_stays hstays]
    obtain ⟨es', hes', hrelaid⟩ := h (.inside (.inr ⟨hbreak _ _, hbreak _ _⟩))
    exact ⟨_, halign.emit (.newline hc hes'), rel_append (relaid_insertedBy rfl) hrelaid⟩

theorem mark (h : Settles false open_ (lead ++ ['﻿']) m es) :
    Settles true open_ lead (('﻿', false) :: m) es := by
  intro start' p held lead' halign
  obtain ⟨rfl, rfl, rfl⟩ := halign.mark rfl
  rw [tidy_stays rfl]
  have hnext : Aligned false open_ (lead ++ ['﻿']) false .inside [] (lead' ++ ['﻿']) :=
    .inside (by simpa [Place.opening] using halign.lead_same ['﻿'])
  obtain ⟨es', hes', hrelaid⟩ := h hnext
  have hwritten : Lexes true open_ lead' (plain ['﻿'] ++ tidy .inside [] m) es' :=
    .pass (.mark rfl) rfl hes'
  exact ⟨es', hwritten, hrelaid⟩

theorem blockComment (hu : blockCommentEnd? u = some u.length)
    (h : Settles false (open_ && !hasBreak ('/' :: '*' :: u))
      (leadAfter open_ lead ('/' :: '*' :: u)) m es) :
    Settles start open_ lead (plain ('/' :: '*' :: u) ++ m)
      (insertedBy open_ lead ('/' :: '*' :: u) ++ es) := by
  intro start' p held lead' halign
  have hnone : ([] : List Char).all isTrimmed = true := rfl
  obtain ⟨u', htidy, hend, hinside⟩ := tidy_comment (p := .inside) hu hnone m
  obtain ⟨hbreak, hsame⟩ := hinside rfl
  have hbreak' : hasBreak ('/' :: '*' :: u') = hasBreak ('/' :: '*' :: u) := hbreak
  have hwritten : tidy p held (plain ('/' :: '*' :: u) ++ m)
      = plain (p.opening ++ held) ++ (plain ('/' :: '*' :: u') ++ tidy .inside [] m) := by
    rw [plain, map_cons, cons_append, tidy_stays rfl, map_cons, cons_append,
      tidy_stays rfl, htidy]
    rfl
  have hnext : Aligned false (open_ && !hasBreak ('/' :: '*' :: u))
      (leadAfter open_ lead ('/' :: '*' :: u)) false .inside []
      (leadAfter open_ (lead' ++ (p.opening ++ held)) ('/' :: '*' :: u')) := by
    refine .inside ?_
    cases hu' : hasBreak ('/' :: '*' :: u) with
    | true => exact .inr ⟨hasBreak_leadAfter hu', hasBreak_leadAfter (hbreak'.trans hu')⟩
    | false =>
      rw [leadAfter_of_not_hasBreak hu', leadAfter_of_not_hasBreak (hbreak'.trans hu'), hsame hu']
      exact halign.lead_same _
  obtain ⟨es', hes', hrelaid⟩ := h hnext
  rw [← hbreak'] at hes'
  rw [hwritten]
  exact ⟨_, halign.emit (.skip (.blockComment hend) hes'),
    rel_append (relaid_insertedBy hbreak') hrelaid⟩

theorem lineComment (hu : hasBreak u = false)
    (hm : m = [] ∨ ∃ d m', isBreak d = true ∧ m = (d, false) :: m')
    (h : Settles false open_ (lead ++ '/' :: '/' :: u) m es) :
    Settles start open_ lead (plain ('/' :: '/' :: u) ++ m) es := by
  intro start' p held lead' halign
  obtain ⟨v, blanks, rfl, hblanks, hv⟩ := exists_trimmed u
  obtain ⟨hv', -⟩ : hasBreak v = false ∧ hasBreak blanks = false := by
    simpa [hasBreak_append] using hu
  have hfeed : '\n' ∉ '/' :: '/' :: v := by
    simpa using not_mem_of_hasBreak hv' rfl
  have hwritten : tidy p held (plain ('/' :: '/' :: (v ++ blanks)) ++ m)
      = plain (p.opening ++ held) ++ (plain ('/' :: '/' :: v) ++ tidy .inside blanks m) := by
    have hsplit : plain ('/' :: '/' :: (v ++ blanks)) ++ m
        = plain ('/' :: '/' :: v) ++ (plain blanks ++ m) := by simp
    obtain ⟨w, d, hw, hd⟩ := hv '/' rfl
    have hw' : '/' :: '/' :: v = '/' :: w ++ [d] := congrArg ('/' :: ·) hw
    rw [hsplit, tidy_text hw' (.inr ⟨hfeed, hd⟩), tidy_blanks hblanks, nil_append]
  rw [hwritten]
  by_cases hreturn : ∃ m', m = ('\x0d', false) :: m'
  · -- blanks before a carriage return stay part of the comment
    obtain ⟨m', rfl⟩ := hreturn
    obtain ⟨es', hes', hrelaid⟩ := h (.inside (halign.lead_same _))
    refine ⟨es', halign.emit ?_, hrelaid⟩
    have hcomment : Lexes false open_ (lead' ++ (p.opening ++ held))
        (plain ('/' :: '/' :: (v ++ blanks)) ++ tidy .inside [] (('\x0d', false) :: m')) es' :=
      .pass (.lineComment hu (by rw [tidy_stays rfl]; rfl)) hu hes'
    rw [tidy_stays rfl] at hcomment ⊢
    simpa [Place.opening] using hcomment
  · -- else they are dropped with the rest of the line
    have hend : (chars (tidy .inside blanks m)).head?.all isBreak = true := by
      rcases hm with rfl | ⟨d, m', hd, rfl⟩
      · rfl
      · have hd' : d = '\n' := by
          by_contra hne
          exact hreturn ⟨m', by simp_all [isBreak]⟩
        rw [hd', tidy_newline]
        rfl
    have hnext : Aligned false open_ (lead ++ '/' :: '/' :: (v ++ blanks)) false .inside blanks
        (lead' ++ (p.opening ++ held) ++ '/' :: '/' :: v) :=
      ⟨by simp, by simp, by simp, hblanks, by simpa using halign.lead_same ('/' :: '/' :: (v ++ blanks))⟩
    obtain ⟨es', hes', hrelaid⟩ := h hnext
    exact ⟨es', halign.emit (.pass (.lineComment hv' hend) hv' hes'), hrelaid⟩

theorem token {kind : TokenKind} (hscan : scan c (v ++ chars m) = .ok (.token kind, v.length))
    (h : Settles false kind.endsStatement [] m es) :
    Settles start open_ lead ((c :: v).map (·, kind == .rawStringLit) ++ m)
      (⟨kind, lead, c :: v⟩ :: es) := by
  intro start' p held lead' halign
  have hwritten : tidy p held ((c :: v).map (·, kind == .rawStringLit) ++ m)
      = plain (p.opening ++ held)
        ++ ((c :: v).map (·, kind == .rawStringLit) ++ tidy .inside [] m) := by
    by_cases hraw : kind = .rawStringLit
    · subst hraw
      obtain ⟨u, hu⟩ := raw_of_scan hscan
      exact tidy_text hu (.inl rfl)
    · obtain ⟨hfeed, u, d, hu, hd, -⟩ := token_line hscan hraw
      exact tidy_text hu (.inr ⟨hfeed, isTrimmed_eq_false hd⟩)
  obtain ⟨es', hes', hrelaid⟩ := h (.inside (.refl []))
  rw [hwritten]
  refine ⟨_, halign.emit (.token (scan_tidy hscan) hes'), .cons ⟨rfl, ?_, ?_⟩ hrelaid⟩
  · simp
  · intro _
    simpa using halign.lead_same []

end Settles

/-- Settling the layout keeps the entries up to what is skipped. -/
theorem lexes_tidy {start open_ : Bool} {lead : List Char} {es : List Entry}
    (h : Lexes start open_ lead m es) : Settles start open_ lead m es := by
  induction h with
  | nil => exact .nil
  | @skip start open_ lead text m es htext hrest ih =>
    have hpass : hasBreak text = false →
        insertedBy open_ lead text = [] ∧ Settles false open_ (lead ++ text) m es := by
      intro hno
      rw [leadAfter_of_not_hasBreak hno, hno, Bool.not_false, Bool.and_true] at ih
      exact ⟨insertedBy_of_not_hasBreak hno, ih⟩
    generalize hk : chars m = k at htext
    cases htext with
    | blank hc =>
      obtain ⟨hnone, hrest'⟩ := hpass (hasBreak_of_isSpace (by simpa using hc))
      rw [hnone]
      exact .blank hc hrest'
    | newline hc => exact .newline hc ih
    | mark hstart =>
      obtain ⟨hnone, hrest'⟩ := hpass rfl
      rw [hstart, hnone]
      exact .mark hrest'
    | lineComment hu hend =>
      obtain ⟨hnone, hrest'⟩ := hpass hu
      rw [hnone]
      exact .lineComment hu (hrest.head_cases (by rwa [hk])) hrest'
    | blockComment hu => exact .blockComment hu ih
  | token hscan _ ih => exact .token hscan ih

/-- The settled form of a text is cut into pieces again, with the same entries up to what is skipped.
Line breaks before the first token are dropped, so that the entries are taken behind a line break. -/
theorem exists_cut_tidy {cs : List Char} {ps : List Piece} (h : Cut true cs ps) :
    ∃ ps', Cut true (chars (tidy .top [] (paint ps))) ps' ∧ paint ps' = tidy .top [] (paint ps) ∧
      List.Forall₂ (Entry.Relaid id) (entries ['\n'] false ps) (entries ['\n'] false ps') := by
  have halign : Aligned true false ['\n'] true .top [] ['\n'] :=
    ⟨fun _ => ⟨rfl, rfl, rfl⟩, fun _ => rfl, fun _ => ⟨rfl, rfl⟩, rfl, .refl _⟩
  obtain ⟨es', hes', hrelaid⟩ := lexes_tidy (lexes_of_cut h ['\n'] false) halign
  obtain ⟨ps', hcut, hpaint, rfl⟩ := hes'.exists_cut
  exact ⟨ps', hcut, hpaint, hrelaid⟩

end Stubwright.Layout
