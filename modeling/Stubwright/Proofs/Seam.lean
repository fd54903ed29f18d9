import Stubwright.Proofs.Pieces

/-!
# Texts one below the other

A line break is a seam: nothing in front of it is read differently because of what stands behind it,
and behind it the text is read as if it stood alone, but for its offset.

* `tokensFrom_above`: the tokens of a text stand in front of those of any text below it.
* `moved_tokensFrom`: a text is read in the same way wherever it stands.
* `tokenize_seam`: two texts with a line feed between them have the tokens of the one and then those
  of the other, moved; and they fail where the lower one fails, whatever the extent of a failure.
-/

namespace Stubwright

open List

namespace Lexeme

/-! ## The upper text -/

/-- A lexeme is read in the same way with a line feed and more text at the end of the text. -/
theorem scan_above {c : Char} {v z : List Char} {cls : Class}
    (h : scan c (v ++ z) = .ok (cls, v.length)) (hreturn : ¬(c = '\r' ∧ v = [] ∧ z = []))
    (below : List Char) : scan c (v ++ (z ++ '\n' :: below)) = .ok (cls, v.length) := by
  rcases cls.token_or with ⟨kind, rfl⟩ | hcls
  · rw [← append_nil z] at h
    exact scan_token_stop h (by simp) rfl
  cases z with
  | cons d z => exact scan_trivia_append hcls h
  | nil =>
    rw [append_nil] at h
    rw [nil_append]
    rcases scan_cases h with ⟨rfl, hc, hn⟩ | ⟨rfl, hc, hn⟩ | ⟨rfl, rfl, hn⟩ |
      ⟨rfl, rfl, cs', rfl, hn⟩ | ⟨rfl, rfl, cs', m, rfl, hm, hn⟩ | ⟨kind, rfl, -⟩
    · have hall : v.all isSpace = true :=
        ((length_takeWhile_append (z := [])).1 (by simpa using hn.symm)).1
      rw [scan_space hc, length_takeWhile_append.2 ⟨hall, rfl⟩]
    · rw [scan_break hc, hn]
      cases v with
      | nil => simp_all
      | cons d v => rfl
    · rw [length_eq_zero_iff.1 hn]
      exact scan_byteOrderMark _
    · have hall : (cs'.all fun d => !isBreak d) = true :=
        ((length_takeWhile_append (z := [])).1 (by simpa using hn.symm)).1
      rw [cons_append, scan_lineComment, length_takeWhile_append.2 ⟨hall, rfl⟩]
      rfl
    · obtain rfl : m = cs'.length := by simpa using hn.symm
      rw [cons_append, scan_blockComment,
        blockCommentEnd?_append (z := []) (by simpa using hm)]
      rfl
    · exact absurd rfl (hcls kind)

theorem map_nil_append (x : Except Fault (List Token)) : x.map ([] ++ ·) = x := by
  cases x <;> rfl

theorem map_cons_append (x : Except Fault (List Token)) (t : Token) (ts : List Token) :
    (x.map (ts ++ ·)).map (t :: ·) = x.map (t :: ts ++ ·) := by
  cases x <;> rfl

/-- The tokens of a text stand in front of those of any text below it. -/
theorem tokensFrom_above {start : Bool} {a : List Char} {ps : List Piece} (h : Cut start a ps)
    {pos : Nat} (hstart : start = (pos == 0)) (lead : List Char) (open_ : Bool)
    (below : List Char) : ∃ lead', tokensFrom pos lead open_ (a ++ '\n' :: below)
      = (tokensFrom (pos + Text.byteSize a + 1) lead' false below).map
          (tokensOf pos lead open_ ps ++ ·) := by
  induction h generalizing pos lead open_ with
  | nil =>
    cases open_ with
    | false =>
      refine ⟨lead ++ ['\n'], (tokensFrom_newline_false pos lead below).trans ?_⟩
      exact (map_nil_append _).symm
    | true => exact ⟨_, tokensFrom_newline_true pos lead below⟩
  | @cons start cls c v z ps hscan hmark hrest ih =>
    by_cases hreturn : c = '\r' ∧ v = [] ∧ z = []
    · -- The carriage return at the end and the line feed of the seam are one line break.
      obtain ⟨rfl, rfl, rfl⟩ := hreturn
      cases hrest
      obtain rfl : cls = .newline := by
        rw [scan_break rfl] at hscan
        exact (Prod.mk.inj (Except.ok.inj hscan)).1.symm
      have hjoined : tokensFrom pos lead open_ ('\r' :: ['\n'] ++ below) = _ :=
        tokensFrom_trivia (scan_break rfl ('\n' :: below)) (by simp) (by simp) lead open_
      cases open_ with
      | false => exact ⟨lead ++ ['\r', '\n'], hjoined.trans (map_nil_append _).symm⟩
      | true => exact ⟨['\r', '\n'], hjoined⟩
    have hnext : false = (pos + Text.byteSize (c :: v) == 0) :=
      (beq_false_of_ne (byteSize_cons_ne_zero pos c v)).symm
    have hsize : pos + Text.byteSize (c :: v ++ z) + 1
        = pos + Text.byteSize (c :: v) + Text.byteSize z + 1 := by
      rw [Text.byteSize_append]
      omega
    have hscan' := scan_above hscan hreturn below
    rw [append_assoc, hsize]
    rcases cls.token_or with ⟨kind, rfl⟩ | hcls
    · obtain ⟨lead', hrest⟩ := ih hnext [] kind.endsStatement
      exact ⟨lead', by rw [tokensFrom_token pos lead open_ hscan', hrest, tokensOf_token,
        map_cons_append]⟩
    · have hzero : cls = .byteOrderMark → pos = 0 := by
        intro hm
        rw [hmark hm] at hstart
        exact eq_of_beq hstart.symm
      rw [tokensFrom_trivia hscan' hcls hzero, tokensOf_trivia hcls]
      split
      · obtain ⟨lead', hrest⟩ := ih hnext (fromBreak (c :: v)) false
        exact ⟨lead', by rw [hrest, map_cons_append]⟩
      · exact ih hnext (lead ++ c :: v) open_

end Lexeme

/-! ## The lower text -/

namespace Token

/-- A token without what was skipped before it: its kind, its text and its range. -/
def bare (t : Token) : TokenKind × String × Span :=
  (t.kind, t.text, t.span)

/-- A token that stands a number of bytes further back. -/
def shift (n : Nat) (t : Token) : Token :=
  { t with start := t.start + n }

end Token

/-- A site that stands a number of bytes further back. -/
def Site.shift (n : Nat) : Site → Site
  | .range span => .range (span.shift n)
  | .invalid start rest => .invalid (start + n) rest

theorem Site.span_shift (extent : Extent) (n : Nat) (s : Site) :
    (s.shift n).span extent = (s.span extent).shift n := by
  cases s with
  | range span => rfl
  | invalid start rest => simp only [shift, span, Span.shift, Nat.add_right_comm]

/-- A failure that happens a number of bytes further back. -/
def Fault.shift (n : Nat) (f : Fault) : Fault :=
  ⟨f.cause, f.site.map (Site.shift n)⟩

/-- The range of a failure moves with it, whatever its extent. -/
theorem Fault.span?_shift (extent : Extent) (n : Nat) (f : Fault) :
    (f.shift n).span? extent = (f.span? extent).map (Span.shift n) := by
  rw [span?, span?, shift, Option.map_map, Option.map_map]
  exact congrArg (fun g => f.site.map g) (funext fun s => s.span_shift extent n)

/-- `y` is what is read where a text stands `n` bytes further back than where `x` is read: the same
tokens, or the same failure. -/
inductive Moved (n : Nat) : (x y : Except Fault (List Token)) → Prop
  | ok {ts us : List Token} (h : us.map Token.bare = ts.map fun t => (t.shift n).bare) :
      Moved n (.ok ts) (.ok us)
  | error {f : Fault} : Moved n (.error f) (.error (f.shift n))

theorem Moved.cons {n : Nat} {x y : Except Fault (List Token)} {t u : Token} (h : Moved n x y)
    (hu : u.bare = (t.shift n).bare) : Moved n (x.map (t :: ·)) (y.map (u :: ·)) := by
  cases h with
  | ok h => exact .ok (by rw [map_cons, map_cons, hu, h])
  | error => exact .error

namespace Lexeme

theorem faultSite_add (cause : SyntaxError.Cause) (pos n : Nat) (rest : List Char) :
    faultSite cause (pos + n) rest = (faultSite cause pos rest).shift n := by
  have hsize : pos + n + Text.byteSize rest = pos + Text.byteSize rest + n := by omega
  cases cause <;> simp [faultSite, Site.shift, Span.shift, hsize]

theorem tokensFrom_error {c : Char} {cs : List Char} {cause : SyntaxError.Cause}
    (h : scan c cs = .error cause) (pos : Nat) (lead : List Char) (open_ : Bool) :
    tokensFrom pos lead open_ (c :: cs)
      = .error ⟨cause, some (faultSite cause pos (c :: cs))⟩ := by
  rw [tokensFrom, h]

theorem tokensFrom_mark {c : Char} {v z : List Char}
    (h : scan c (v ++ z) = .ok (.byteOrderMark, v.length)) {pos : Nat} (hpos : pos ≠ 0)
    (lead : List Char) (open_ : Bool) : tokensFrom pos lead open_ (c :: v ++ z)
      = .error ⟨.misplacedByteOrderMark, some (.range ⟨pos, pos + Text.byteSize (c :: v)⟩)⟩ := by
  rw [cons_append, tokensFrom, h]
  simp only [take_left, if_neg hpos]

/-- A text is read in the same way wherever it stands, unless a byte order mark comes first. -/
theorem moved_tokensFrom (n : Nat) {cs : List Char} {pos : Nat}
    (hmark : pos = 0 → cs.head? ≠ some '\ufeff') (lead lead' : List Char) (open_ : Bool) :
    Moved n (tokensFrom pos lead open_ cs) (tokensFrom (pos + n) lead' open_ cs) := by
  induction hlen : cs.length using Nat.strong_induction_on generalizing pos lead lead' open_ cs with
  | _ len ih =>
  cases cs with
  | nil =>
    rw [tokensFrom, tokensFrom]
    cases open_ with
    | false => exact .ok rfl
    | true => exact .ok rfl
  | cons c cs =>
    cases hscan : scan c cs with
    | error cause =>
      rw [tokensFrom_error hscan, tokensFrom_error hscan, faultSite_add]
      exact .error
    | ok lexeme =>
      obtain ⟨cls, m⟩ := lexeme
      obtain ⟨v, z, rfl, rfl⟩ : ∃ v z, cs = v ++ z ∧ m = v.length :=
        ⟨cs.take m, cs.drop m, (take_append_drop m cs).symm,
          (length_take_of_le (scan_le hscan)).symm⟩
      -- What is left is shorter, and it does not stand at the start.
      have hrest : ∀ lead lead' open_,
          Moved n (tokensFrom (pos + Text.byteSize (c :: v)) lead open_ z)
            (tokensFrom (pos + n + Text.byteSize (c :: v)) lead' open_ z) := by
        intro lead lead' open_
        have hlt : z.length < len := by
          rw [← hlen, length_cons, length_append]
          omega
        have hmoved := ih z.length hlt
          (fun h => absurd h (byteSize_cons_ne_zero pos c v)) lead lead' open_ rfl
        rwa [Nat.add_right_comm] at hmoved
      rw [← cons_append] at hmark ⊢
      rcases cls.token_or with ⟨kind, rfl⟩ | hcls
      · rw [tokensFrom_token pos lead open_ hscan, tokensFrom_token (pos + n) lead' open_ hscan]
        exact (hrest [] [] kind.endsStatement).cons rfl
      by_cases hbom : cls = .byteOrderMark
      · subst hbom
        have hpos : pos ≠ 0 := by
          intro hpos
          have hc : c = '\ufeff' := by
            rcases scan_cases hscan with h | h | h | h | h | ⟨kind, h⟩ <;> simp_all
          exact hmark hpos (by rw [hc]; rfl)
        rw [tokensFrom_mark hscan hpos, tokensFrom_mark hscan (by omega), Nat.add_right_comm]
        exact .error
      · rw [tokensFrom_trivia hscan hcls (fun h => absurd h hbom),
          tokensFrom_trivia hscan hcls (fun h => absurd h hbom)]
        split
        · refine (hrest _ _ false).cons ?_
          rw [Nat.add_right_comm]
          rfl
        · exact hrest _ _ open_

end Lexeme

/-! ## Both texts -/

/-- A text with another one below it is read as the two of them. -/
theorem moved_seam {a b : List Char} {ts : List Token} (ha : tokenize a = .ok ts)
    (hb : b.head? ≠ some '\ufeff') : ∃ y, Moved (Text.byteSize a + 1) (tokenize b) y ∧
      tokenize (a ++ '\n' :: b) = y.map (ts ++ ·) := by
  obtain ⟨ps, hcut, rfl⟩ := tokenize_eq_ok_iff.1 ha
  have hstart : true = ((0 : Nat) == 0) := rfl
  obtain ⟨lead, habove⟩ := Lexeme.tokensFrom_above hcut hstart [] false b
  have hmoved := Lexeme.moved_tokensFrom (Text.byteSize a + 1) (fun _ : 0 = 0 => hb) [] lead false
  exact ⟨_, by rwa [← Nat.add_assoc] at hmoved, habove⟩

/-- A text with another one below it, with a line feed between them, has the tokens of the one and
then those of the other, moved; and it fails where the lower one fails, for the same cause and in the
range that is moved, whatever the extent of a failure where no token starts. -/
theorem tokenize_seam {a b : List Char} {ts : List Token} (ha : tokenize a = .ok ts)
    (hb : b.head? ≠ some '\ufeff') :
    ((∃ ws, tokenize (a ++ '\n' :: b) = .ok ws) ↔ ∃ us, tokenize b = .ok us) ∧
    (∀ us, tokenize b = .ok us → ∃ ws, tokenize (a ++ '\n' :: b) = .ok ws ∧
      ws.map Token.bare
        = ts.map Token.bare ++ us.map fun t => (t.shift (Text.byteSize a + 1)).bare) ∧
    ∀ f, tokenize b = .error f → ∃ g, tokenize (a ++ '\n' :: b) = .error g ∧ g.cause = f.cause ∧
      ∀ extent, g.span? extent = (f.span? extent).map (Span.shift (Text.byteSize a + 1)) := by
  obtain ⟨y, hmoved, hseam⟩ := moved_seam ha hb
  rw [hseam]
  generalize tokenize b = x at hmoved
  cases hmoved with
  | @ok us vs h =>
    refine ⟨⟨fun _ => ⟨us, rfl⟩, fun _ => ⟨ts ++ vs, rfl⟩⟩, ?_, ?_⟩
    · rintro us' ⟨⟩
      exact ⟨ts ++ vs, rfl, by rw [map_append, h]⟩
    · rintro f ⟨⟩
  | @error f =>
    refine ⟨⟨?_, ?_⟩, ?_, ?_⟩
    · rintro ⟨ws, ⟨⟩⟩
    · rintro ⟨us, ⟨⟩⟩
    · rintro us ⟨⟩
    · rintro f' ⟨⟩
      exact ⟨f.shift (Text.byteSize a + 1), rfl, rfl, fun extent => f.span?_shift extent _⟩

/-- The upper text ends with a carriage return; below it stands a text that can be read, then one with
a comment that is not closed and one with a character that starts no token. -/
theorem tokenize_seam_return :
    tokenize "x /*é*/\r".toList = .ok [⟨.ident, "", "x", 0⟩, Token.inserted " /*é*/".toList 8] ∧
    (∃ ws, tokenize ("x /*é*/\r".toList ++ '\n' :: "f(1.)// end".toList) = .ok ws ∧
      ws.map Token.bare
        = [(.ident, "x", ⟨0, 1⟩), (.semi, "", ⟨8, 8⟩), (.ident, "f", ⟨10, 11⟩),
          (.lParen, "(", ⟨11, 12⟩), (.floatLit, "1.", ⟨12, 14⟩), (.rParen, ")", ⟨14, 15⟩),
          (.semi, "", ⟨21, 21⟩)]) ∧
    (∃ g, tokenize ("x /*é*/\r".toList ++ '\n' :: "y /*".toList) = .error g ∧
      g.cause = .unterminatedComment ∧ ∀ extent, g.span? extent = some ⟨12, 14⟩) ∧
    ∃ g, tokenize ("x /*é*/\r".toList ++ '\n' :: "y #z".toList) = .error g ∧
      g.cause = .invalidToken ∧
      ∀ extent, g.span? extent = some ⟨12, 2 + extent "#z".toList + 10⟩ := by
  have ha : tokenize "x /*é*/\r".toList
      = .ok [⟨.ident, "", "x", 0⟩, Token.inserted " /*é*/".toList 8] := by cbv
  have hb : tokenize "f(1.)// end".toList = .ok [⟨.ident, "", "f", 0⟩, ⟨.lParen, "", "(", 1⟩,
      ⟨.floatLit, "", "1.", 2⟩, ⟨.rParen, "", ")", 4⟩, Token.inserted "// end".toList 11] := by cbv
  have hopen : tokenize "y /*".toList
      = .error ⟨.unterminatedComment, some (.range ⟨2, 4⟩)⟩ := by cbv
  have hinvalid : tokenize "y #z".toList
      = .error ⟨.invalidToken, some (.invalid 2 "#z".toList)⟩ := by cbv
  exact ⟨ha, (tokenize_seam ha (by decide)).2.1 _ hb, (tokenize_seam ha (by decide)).2.2 _ hopen,
    (tokenize_seam ha (by decide)).2.2 _ hinvalid⟩

end Stubwright
