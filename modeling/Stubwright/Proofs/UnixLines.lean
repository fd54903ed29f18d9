import Stubwright.Layout
import Stubwright.Proofs.Outline

/-!
# Line ends and tokens

Leaving out the carriage returns before line feeds changes no token but a raw literal, and neither
does putting them in: a text has tokens if and only if it has them with its line ends made short.

* `Layout.unixLines_append`, `Layout.exists_of_unixLines`: short line ends, part by part.
-/

namespace Stubwright.Layout

open List

open Lexeme

variable {c : Char} {z v cs : List Char} {t : List Char} {start : Bool}

/-! ## Short line ends -/

theorem unixLines_cons {k : List Char} (h : ¬(c = '\x0d' ∧ k.head? = some '\n')) :
    unixLines (c :: k) = c :: unixLines k := by
  cases k with
  | nil => rfl
  | cons d k =>
    rw [unixLines, if_neg]
    simpa using h

theorem unixLines_crlf (k : List Char) : unixLines ('\x0d' :: '\n' :: k) = '\n' :: unixLines k := by
  rw [unixLines, if_pos (by decide), unixLines_cons (by simp)]

/-- A text starts with a long line end, or its first character stays. -/
theorem unixLines_cases (cs : List Char) :
    cs = [] ∨ (∃ k, cs = '\x0d' :: '\n' :: k ∧ unixLines cs = '\n' :: unixLines k) ∨
      ∃ c k, cs = c :: k ∧ ¬(c = '\x0d' ∧ k.head? = some '\n') ∧ unixLines cs = c :: unixLines k := by
  cases cs with
  | nil => exact .inl rfl
  | cons c k =>
    by_cases h : c = '\x0d' ∧ k.head? = some '\n'
    · obtain ⟨rfl, hk⟩ := h
      obtain ⟨k, rfl⟩ := head?_eq_some_iff.1 hk
      exact .inr (.inl ⟨k, rfl, unixLines_crlf k⟩)
    · exact .inr (.inr ⟨c, k, rfl, h, unixLines_cons h⟩)

/-- Induction along the line ends of a text. -/
theorem unixLines_induction {P : List Char → Prop} (hnil : P [])
    (hcrlf : ∀ k, P k → P ('\x0d' :: '\n' :: k))
    (hcons : ∀ c k, ¬(c = '\x0d' ∧ k.head? = some '\n') → P k → P (c :: k)) (cs : List Char) : P cs := by
  induction hlen : cs.length using Nat.strong_induction_on generalizing cs with
  | _ n ih =>
    rcases unixLines_cases cs with rfl | ⟨k, rfl, -⟩ | ⟨c, k, rfl, h, -⟩
    · exact hnil
    · exact hcrlf k (ih _ (by rw [← hlen]; simp) k rfl)
    · exact hcons c k h (ih _ (by rw [← hlen]; simp) k rfl)

theorem unixLines_append (u : List Char) (h : ¬(u.getLast? = some '\x0d' ∧ z.head? = some '\n')) :
    unixLines (u ++ z) = unixLines u ++ unixLines z := by
  induction u using unixLines_induction with
  | hnil => rfl
  | hcrlf k ih =>
    have hk : ¬(k.getLast? = some '\x0d' ∧ z.head? = some '\n') := by
      rintro ⟨hlast, hz⟩
      exact h ⟨by simp [getLast?_cons, hlast], hz⟩
    rw [cons_append, cons_append, unixLines_crlf, unixLines_crlf, ih hk, cons_append]
  | hcons c k hc ih =>
    have hk : ¬(k.getLast? = some '\x0d' ∧ z.head? = some '\n') := by
      rintro ⟨hlast, hz⟩
      exact h ⟨by simp [getLast?_cons, hlast], hz⟩
    have hc' : ¬(c = '\x0d' ∧ (k ++ z).head? = some '\n') := by
      rintro ⟨rfl, hhead⟩
      cases k with
      | nil => exact h ⟨rfl, hhead⟩
      | cons d k => exact hc ⟨rfl, hhead⟩
    rw [cons_append, unixLines_cons hc, unixLines_cons hc', ih hk, cons_append]

/-- Parts of a text with short line ends come from parts of the text. -/
theorem exists_of_unixLines (cs : List Char) (h : unixLines cs = v ++ z) :
    ∃ u y, cs = u ++ y ∧ unixLines u = v ∧ unixLines y = z := by
  induction cs using unixLines_induction generalizing v with
  | hnil =>
    obtain ⟨rfl, rfl⟩ := append_eq_nil_iff.1 h.symm
    exact ⟨[], [], rfl, rfl, rfl⟩
  | hcrlf k ih =>
    cases v with
    | nil => exact ⟨[], _, rfl, rfl, h⟩
    | cons d v =>
      rw [unixLines_crlf] at h
      obtain ⟨rfl, hk⟩ := List.cons.inj h
      obtain ⟨u, y, rfl, rfl, rfl⟩ := ih hk
      exact ⟨_ :: _ :: u, y, rfl, unixLines_crlf u, rfl⟩
  | hcons c k hc ih =>
    cases v with
    | nil => exact ⟨[], _, rfl, rfl, h⟩
    | cons d v =>
      rw [unixLines_cons hc] at h
      obtain ⟨rfl, hk⟩ := List.cons.inj h
      obtain ⟨u, y, rfl, rfl, rfl⟩ := ih hk
      refine ⟨c :: u, y, rfl, unixLines_cons ?_, rfl⟩
      rintro ⟨rfl, hhead⟩
      exact hc ⟨rfl, by rw [head?_append, hhead]; rfl⟩

theorem mem_unixLines (hc : c ≠ '\x0d') (cs : List Char) : c ∈ unixLines cs ↔ c ∈ cs := by
  induction cs using unixLines_induction with
  | hnil => rfl
  | hcrlf k ih => rw [unixLines_crlf, mem_cons, mem_cons, mem_cons, ih]; simp [hc]
  | hcons d k hd ih => rw [unixLines_cons hd, mem_cons, mem_cons, ih]

theorem unixLines_eq_self (h : '\n' ∉ cs) : unixLines cs = cs := by
  induction cs using unixLines_induction with
  | hnil => rfl
  | hcrlf k ih => simp at h
  | hcons d k hd ih =>
    rw [unixLines_cons hd, ih fun hmem => h (mem_cons_of_mem d hmem)]

theorem hasBreak_unixLines (cs : List Char) : hasBreak (unixLines cs) = hasBreak cs := by
  induction cs using unixLines_induction with
  | hnil => rfl
  | hcrlf k ih => rw [unixLines_crlf, hasBreak_cons rfl, hasBreak_cons rfl]
  | hcons d k hd ih => rw [unixLines_cons hd, hasBreak_cons_eq, hasBreak_cons_eq, ih]

/-- A text agrees with its form with short line ends up to the first long line end. -/
theorem unixLines_ahead (cs : List Char) : ∃ w r k, cs = w ++ r ∧ unixLines cs = w ++ k ∧
    (r = [] ∧ k = [] ∨ r.head? = some '\x0d' ∧ k.head? = some '\n') := by
  induction cs using unixLines_induction with
  | hnil => exact ⟨[], [], [], rfl, rfl, .inl ⟨rfl, rfl⟩⟩
  | hcrlf k ih => exact ⟨[], _, _, rfl, unixLines_crlf k, .inr ⟨rfl, rfl⟩⟩
  | hcons d k hd ih =>
    obtain ⟨w, r, k', hk, hunix, hends⟩ := ih
    exact ⟨d :: w, r, k', by rw [hk]; rfl, by rw [unixLines_cons hd, hunix]; rfl, hends⟩

theorem head?_unixLines (cs : List Char) : (unixLines cs).head? = cs.head? ∨
    cs.head? = some '\x0d' ∧ (unixLines cs).head? = some '\n' := by
  rcases unixLines_cases cs with rfl | ⟨k, rfl, h⟩ | ⟨c, k, rfl, -, h⟩
  · exact .inl rfl
  · rw [h]
    exact .inr ⟨rfl, rfl⟩
  · rw [h]
    exact .inl rfl

theorem eq_of_unixLines (h : unixLines cs = v) (hv : '\n' ∉ v) : cs = v := by
  have hcs : '\n' ∉ cs := by rwa [← mem_unixLines (by decide), h]
  rw [← h, unixLines_eq_self hcs]

/-! ## Lexemes -/

/-- A token is read of a text in the same way with either line ends. -/
theorem scan_unixLines_iff {kind : TokenKind} :
    scan c (unixLines v ++ unixLines z) = .ok (.token kind, (unixLines v).length)
      ↔ scan c (v ++ z) = .ok (.token kind, v.length) := by
  by_cases hkind : kind = .rawStringLit
  · subst hkind
    rw [scan_raw_iff, scan_raw_iff, rawEnd?_iff, rawEnd?_iff]
    refine and_congr_right fun _ => ⟨?_, ?_⟩
    · rintro ⟨u, hu, hmem⟩
      obtain ⟨u₀, y, rfl, rfl, hy⟩ := exists_of_unixLines v hu
      obtain rfl := eq_of_unixLines hy (by decide)
      exact ⟨u₀, rfl, fun h => hmem ((mem_unixLines (by decide) u₀).2 h)⟩
    · rintro ⟨u, rfl, hmem⟩
      refine ⟨unixLines u, unixLines_append u (by simp), ?_⟩
      rwa [mem_unixLines (by decide)]
  · obtain ⟨w, r, k, hz, hunix, hends⟩ := unixLines_ahead z
    have hr : r.head? ≠ some '.' ∧ stopsToken r = true := by
      rcases hends with ⟨rfl, -⟩ | ⟨hr, -⟩
      · exact ⟨by simp, rfl⟩
      · exact ⟨by simp [hr], by rw [stopsToken, hr]; rfl⟩
    have hk : k.head? ≠ some '.' ∧ stopsToken k = true := by
      rcases hends with ⟨-, rfl⟩ | ⟨-, hk⟩
      · exact ⟨by simp, rfl⟩
      · exact ⟨by simp [hk], by rw [stopsToken, hk]; rfl⟩
    rw [hunix, hz]
    constructor
    · intro h
      have hfeed : '\n' ∉ unixLines v := fun hmem =>
        (token_line h hkind).1 (mem_cons_of_mem c hmem)
      rw [← eq_of_unixLines rfl hfeed] at h
      exact scan_token_stop h hk.1 hr.2
    · intro h
      have hfeed : '\n' ∉ v := fun hmem => (token_line h hkind).1 (mem_cons_of_mem c hmem)
      rw [unixLines_eq_self hfeed]
      exact scan_token_stop h hr.1 hk.2

theorem head?_unixLines_iff {d : Char} (hd : isBreak d = false) (cs : List Char) :
    (unixLines cs).head? = some d ↔ cs.head? = some d := by
  rcases head?_unixLines cs with h | ⟨hcs, hunix⟩
  · rw [h]
  · rw [hcs, hunix]
    constructor <;> rintro ⟨rfl⟩ <;> cases hd

/-- A comment between its marks is one with either line ends. -/
theorem comment_unixLines_iff (u : List Char) :
    blockCommentEnd? (unixLines u) = some (unixLines u).length
      ↔ blockCommentEnd? u = some u.length := by
  induction u using unixLines_induction with
  | hnil => rfl
  | hcrlf k ih =>
    rw [unixLines_crlf, comment_cons_iff (by simp), comment_cons_iff (by simp),
      comment_cons_iff (by simp), ih]
  | hcons c k hc ih =>
    by_cases hmark : c = '*' ∧ k.head? = some '/'
    · obtain ⟨rfl, hk⟩ := hmark
      obtain ⟨k, rfl⟩ := head?_eq_some_iff.1 hk
      have hend : ∀ k : List Char, blockCommentEnd? ('*' :: '/' :: k) = some 2 := fun k => rfl
      rw [unixLines_cons hc, unixLines_cons (by simp), hend, hend]
      cases k with
      | nil => rfl
      | cons d k =>
        have hne : unixLines (d :: k) ≠ [] := by
          rcases unixLines_cases (d :: k) with h | ⟨k', -, h⟩ | ⟨d', k', -, -, h⟩
          · cases h
          · rw [h]; simp
          · rw [h]; simp
        simp [hne]
    · have hmark' : ¬(c = '*' ∧ (unixLines k).head? = some '/') := by
        rwa [head?_unixLines_iff rfl]
      rw [unixLines_cons hc, comment_cons_iff hmark', comment_cons_iff hmark, ih]

theorem head?_all_isBreak (cs : List Char) :
    (unixLines cs).head?.all isBreak = cs.head?.all isBreak := by
  rcases head?_unixLines cs with h | ⟨hcs, hunix⟩
  · rw [h]
  · rw [hcs, hunix]
    rfl

theorem exists_comment {u : List Char} (h : blockCommentEnd? u = some u.length) :
    ∃ w, u = w ++ ['*', '/'] := by
  induction u with
  | nil => cases h
  | cons c u ih =>
    rcases comment_cases h with hu | ⟨c', v, hu, -, hv⟩
    · exact ⟨[], hu⟩
    · obtain ⟨rfl, rfl⟩ := List.cons.inj hu
      obtain ⟨w, rfl⟩ := ih hv
      exact ⟨c :: w, rfl⟩

/-- Skipped text is skipped with short line ends, unless the line end comes apart. -/
theorem skips_unixLines (h : Skips start t z) :
    t = ['\x0d'] ∨ t.getLast? ≠ some '\x0d' ∧ Skips start (unixLines t) (unixLines z) := by
  cases h with
  | @blank c _ hc =>
    refine .inr ⟨?_, .blank hc⟩
    rintro ⟨rfl⟩
    cases hc
  | @newline c _ hc =>
    by_cases hreturn : c = '\x0d'
    · exact .inl (by rw [hreturn])
    · exact .inr ⟨by simpa using hreturn, .newline hc⟩
  | mark hstart => exact .inr ⟨by decide, .mark hstart⟩
  | @lineComment u _ hu hz =>
    have hfeed : '\n' ∉ '/' :: '/' :: u := not_mem_of_hasBreak hu rfl
    have hreturn : '\x0d' ∉ '/' :: '/' :: u := not_mem_of_hasBreak hu rfl
    rw [unixLines_eq_self hfeed]
    exact .inr ⟨fun hlast => hreturn (mem_of_getLast? hlast),
      .lineComment hu (by rwa [head?_all_isBreak])⟩
  | @blockComment u _ hu =>
    obtain ⟨w, hw⟩ := exists_comment hu
    refine .inr ⟨?_, ?_⟩
    · rw [hw]
      simp [getLast?_cons]
    · rw [unixLines_cons (by simp), unixLines_cons (by simp)]
      exact .blockComment ((comment_unixLines_iff u).2 hu)

/-- Skipped text with short line ends is skipped, unless it is a line end that comes apart. -/
theorem skips_of_unixLines
    (h : Skips start (unixLines t) (unixLines z)) : t = ['\x0d', '\n'] ∨ Skips start t z := by
  generalize ht : unixLines t = t' at h
  generalize hz : unixLines z = z' at h
  cases h with
  | @blank c _ hc =>
    have hfeed : '\n' ∉ [c] := by
      rintro hmem
      rw [← mem_singleton.1 hmem] at hc
      cases hc
    obtain rfl := eq_of_unixLines ht hfeed
    exact .inr (.blank hc)
  | @newline c _ hc =>
    rcases unixLines_cases t with rfl | ⟨k, rfl, hk⟩ | ⟨d, k, rfl, -, hk⟩
    · cases ht
    · rw [hk] at ht
      obtain ⟨-, hnil⟩ := List.cons.inj ht
      exact .inl (by rw [eq_of_unixLines hnil (by simp)])
    · rw [hk] at ht
      obtain ⟨rfl, hnil⟩ := List.cons.inj ht
      rw [eq_of_unixLines hnil (by simp)]
      exact .inr (.newline hc)
  | mark hstart =>
    obtain rfl := eq_of_unixLines ht (by decide)
    exact .inr (.mark hstart)
  | @lineComment u _ hu hend =>
    obtain rfl := eq_of_unixLines ht (not_mem_of_hasBreak hu rfl)
    exact .inr (.lineComment hu (by rwa [← head?_all_isBreak, hz]))
  | @blockComment u _ hu =>
    obtain ⟨v, w, rfl, hv, rfl⟩ := exists_of_unixLines t (v := ['/', '*']) ht
    obtain rfl := eq_of_unixLines hv (by decide)
    exact .inr (.blockComment ((comment_unixLines_iff w).1 hu))

/-! ## Entries -/

section

variable {start open_ : Bool} {lead lead' : List Char} {m : List Marked} {es : List Entry}

/-- What is skipped next stays the same up to line breaks. -/
theorem leadAfter_unixLines (hlead : SameLead lead lead') (text : List Char) :
    SameLead (leadAfter open_ lead text) (leadAfter open_ lead' (unixLines text)) := by
  cases htext : hasBreak text with
  | true => exact .inr ⟨hasBreak_leadAfter htext, hasBreak_leadAfter (by rwa [hasBreak_unixLines])⟩
  | false =>
    rw [unixLines_eq_self (not_mem_of_hasBreak htext rfl), leadAfter_of_not_hasBreak htext,
      leadAfter_of_not_hasBreak htext]
    exact hlead.append text

/-- A token with short line ends. -/
theorem relaid_token {kind : TokenKind} (hscan : scan c (v ++ z) = .ok (.token kind, v.length))
    (hlead : SameLead lead lead') :
    Entry.Relaid unixLines ⟨kind, lead, c :: v⟩ ⟨kind, lead', c :: unixLines v⟩ := by
  have hc : c ≠ '\x0d' := by
    rintro rfl
    cases (tokenAt_of_scan hscan).1
  refine ⟨rfl, ?_, fun _ => hlead⟩
  split
  · exact (unixLines_cons fun h => hc h.1).symm
  next hkind =>
    have hfeed : '\n' ∉ v := fun hmem => (token_line hscan hkind).1 (mem_cons_of_mem c hmem)
    exact congrArg (c :: ·) (unixLines_eq_self hfeed)

/-- The entries of a text with short line ends. -/
theorem exists_lexes_unixLines (h : Lexes start open_ lead m es)
    (hlead : SameLead lead lead') :
    ∃ m' es', chars m' = unixLines (chars m) ∧ Lexes start open_ lead' m' es' ∧
      List.Forall₂ (Entry.Relaid unixLines) es es' := by
  induction h generalizing lead' with
  | @nil start open_ lead =>
    refine ⟨[], _, rfl, .nil, ?_⟩
    cases open_ with
    | true => exact .cons (.semi ..) .nil
    | false => exact .nil
  | @skip start open_ lead text m es htext hrest ih =>
    rw [chars_append, chars_map]
    rcases skips_unixLines htext with rfl | ⟨hlast, hskips⟩
    · have hlead' : SameLead (leadAfter open_ lead ['\x0d']) (leadAfter open_ lead' ['\x0d']) :=
        .inr ⟨hasBreak_leadAfter rfl, hasBreak_leadAfter rfl⟩
      obtain ⟨m', es', hm', hes', hrelaid⟩ := ih hlead'
      by_cases hfeed : (chars m).head? = some '\n'
      · -- the line feed behind the carriage return ends the statement in its place
        obtain ⟨k, hk⟩ := head?_eq_some_iff.1 hfeed
        rw [hk, unixLines_cons (by simp)] at hm'
        rw [hasBreak_cons rfl, Bool.not_true, Bool.and_false] at hes'
        rcases hes'.head_cases (by rw [hm']; rfl) with rfl | ⟨d, m', hd, rfl⟩
        · cases hm'
        · obtain ⟨rfl, hm''⟩ := List.cons.inj hm'
          have hfeed' : SameLead (leadAfter open_ lead' ['\x0d'] ++ ['\n'])
              (leadAfter open_ lead' ['\n']) :=
            .inr ⟨by rw [hasBreak_append, hasBreak_leadAfter rfl, Bool.true_or],
              hasBreak_leadAfter rfl⟩
          obtain ⟨es₁, hes₁, hrelaid₁⟩ := (hes'.newline_inv rfl).relead hfeed'
          have hrest' : Lexes false (open_ && !hasBreak ['\n']) (leadAfter open_ lead' ['\n']) m' es₁ := by
            rw [hasBreak_cons rfl, Bool.not_true, Bool.and_false]
            exact hes₁
          refine ⟨('\n', false) :: m', _, ?_, .newline rfl hrest',
            rel_append (relaid_insertedBy rfl) (forall₂_relaid_trans hrelaid hrelaid₁)⟩
          rw [hk, singleton_append, unixLines_crlf]
          exact congrArg ('\n' :: ·) hm''
      · refine ⟨('\x0d', false) :: m', _, ?_, .newline rfl hes',
          rel_append (relaid_insertedBy rfl) hrelaid⟩
        rw [chars_cons, hm', singleton_append, unixLines_cons fun h => hfeed h.2]
    · obtain ⟨m', es', hm', hes', hrelaid⟩ := ih (leadAfter_unixLines hlead text)
      refine ⟨plain (unixLines text) ++ m', _, ?_, .skip (by rwa [hm']) ?_,
        rel_append (relaid_insertedBy (hasBreak_unixLines text)) hrelaid⟩
      · rw [chars_append, chars_map, hm', unixLines_append text fun h => hlast h.1]
      · rwa [hasBreak_unixLines]
  | @token start open_ lead v c kind m es hscan hrest ih =>
    obtain ⟨m', es', hm', hes', hrelaid⟩ := ih (.refl [])
    have hc : c ≠ '\x0d' := by
      rintro rfl
      cases (tokenAt_of_scan hscan).1
    refine ⟨(c :: unixLines v).map (·, kind == .rawStringLit) ++ m', _, ?_,
      .token (by rwa [hm', scan_unixLines_iff]) hes', .cons (relaid_token hscan hlead) hrelaid⟩
    rw [chars_append, chars_append, chars_map, chars_map, hm',
      unixLines_append (c :: v) fun h => token_last hscan h.1, unixLines_cons fun h => hc h.1]

/-- The entries of a text are those it has with short line ends. -/
theorem exists_lexes_of_unixLines (h : Lexes start open_ lead' m es) (hcs : unixLines cs = chars m)
    (hlead : SameLead lead lead') :
    ∃ m₀ es₀, chars m₀ = cs ∧ Lexes start open_ lead m₀ es₀ ∧
      List.Forall₂ (Entry.Relaid unixLines) es₀ es := by
  induction h generalizing lead cs with
  | @nil start open_ lead' =>
    obtain rfl := eq_of_unixLines hcs (by simp)
    refine ⟨[], _, rfl, .nil, ?_⟩
    cases open_ with
    | true => exact .cons (.semi ..) .nil
    | false => exact .nil
  | @skip start open_ lead' text m es htext hrest ih =>
    rw [chars_append, chars_map] at hcs
    obtain ⟨t, z, rfl, rfl, hz⟩ := exists_of_unixLines cs hcs
    rw [← hz] at htext
    rcases skips_of_unixLines htext with rfl | hskips
    · -- the line end comes apart: the carriage return ends the statement
      have hlead' : SameLead (leadAfter open_ lead ['\x0d'] ++ ['\n']) (leadAfter open_ lead' ['\n']) :=
        .inr ⟨by rw [hasBreak_append, hasBreak_leadAfter rfl, Bool.true_or], hasBreak_leadAfter rfl⟩
      obtain ⟨m₀, es₀, rfl, hes₀, hrelaid⟩ := ih hz hlead'
      have hfeed : Lexes false (open_ && !hasBreak ['\x0d']) (leadAfter open_ lead ['\x0d'])
          (('\n', false) :: m₀) es₀ := by
        rw [hasBreak_unixLines, hasBreak_cons rfl, Bool.not_true, Bool.and_false] at hes₀
        rw [hasBreak_cons rfl, Bool.not_true, Bool.and_false]
        exact .newlineAgain rfl hes₀
      exact ⟨('\x0d', false) :: ('\n', false) :: m₀, _, rfl, .newline rfl hfeed,
        rel_append (relaid_insertedBy rfl) hrelaid⟩
    · obtain ⟨m₀, es₀, rfl, hes₀, hrelaid⟩ := ih hz (leadAfter_unixLines hlead t)
      refine ⟨plain t ++ m₀, _, ?_, .skip hskips ?_,
        rel_append (relaid_insertedBy (hasBreak_unixLines t)) hrelaid⟩
      · rw [chars_append, chars_map]
      · rwa [hasBreak_unixLines] at hes₀
  | @token start open_ lead' v c kind m es hscan hrest ih =>
    rw [chars_append, chars_map] at hcs
    obtain ⟨t, z, rfl, ht, hz⟩ := exists_of_unixLines cs hcs
    obtain ⟨-, hbreak, -⟩ := isInk_iff.1 (tokenAt_of_scan hscan).1
    obtain ⟨w, rfl, rfl⟩ : ∃ w, t = c :: w ∧ unixLines w = v := by
      rcases unixLines_cases t with rfl | ⟨k, rfl, hk⟩ | ⟨d, k, rfl, -, hk⟩
      · cases ht
      · rw [hk] at ht
        rw [← (List.cons.inj ht).1] at hbreak
        cases hbreak
      · rw [hk] at ht
        exact ⟨k, by rw [(List.cons.inj ht).1], (List.cons.inj ht).2⟩
    obtain ⟨m₀, es₀, rfl, hes₀, hrelaid⟩ := ih hz (.refl [])
    rw [← hz, scan_unixLines_iff] at hscan
    refine ⟨(c :: w).map (·, kind == .rawStringLit) ++ m₀, _, ?_, .token hscan hes₀,
      .cons (relaid_token hscan hlead) hrelaid⟩
    rw [chars_append, chars_map]

end

/-- A text has tokens if it has them with short line ends, and the other way round. -/
theorem exists_cut_unixLines {ps : List Piece} (h : Cut true cs ps) (lead : List Char) :
    ∃ ps', Cut true (unixLines cs) ps' ∧
      List.Forall₂ (Entry.Relaid unixLines) (entries lead false ps) (entries lead false ps') := by
  obtain ⟨m', es', hm', hes', hrelaid⟩ :=
    exists_lexes_unixLines (lexes_of_cut h lead false) (.refl lead)
  obtain ⟨ps', hcut, -, rfl⟩ := hes'.exists_cut
  rw [hm', chars_paint, h.text_eq] at hcut
  exact ⟨ps', hcut, hrelaid⟩

theorem exists_cut_of_unixLines {ps' : List Piece} (h : Cut true (unixLines cs) ps')
    (lead : List Char) :
    ∃ ps, Cut true cs ps ∧
      List.Forall₂ (Entry.Relaid unixLines) (entries lead false ps) (entries lead false ps') := by
  have hchars : unixLines cs = chars (paint ps') := by rw [chars_paint, h.text_eq]
  obtain ⟨m, es, rfl, hes, hrelaid⟩ :=
    exists_lexes_of_unixLines (lexes_of_cut h lead false) hchars (.refl lead)
  obtain ⟨ps, hcut, -, rfl⟩ := hes.exists_cut
  exact ⟨ps, hcut, hrelaid⟩

end Stubwright.Layout
