import Stubwright.Proofs.Lexing

/-!
# Texts and their pieces

Cutting a text into tokens has two steps in it: the text is cut into pieces, one lexeme each, and
the tokens are read off the list of pieces.

* `tokensFrom_eq_ok_iff`: the tokens of a text are those of its pieces.
-/

namespace Stubwright

open List

open Text

variable {text : List Char} {pos : Nat} {ts : List Token}

theorem Text.byteSize_toList (s : String) : byteSize s.toList = s.utf8ByteSize := by
  have h : ∀ cs : List Char, byteSize cs = String.utf8Len cs := by
    intro cs
    induction cs with
    | nil => rfl
    | cons c cs ih => rw [byteSize_cons, String.utf8Len_cons, ih, Nat.add_comm]
  rw [h, ← String.utf8ByteSize_ofList, String.ofList_toList]

variable {ps : List Piece}

namespace Lexeme

variable {c : Char} {z cs : List Char} {cls : Class} {start : Bool} {v : List Char}

/-! ## Lexemes by class -/

theorem operator_kinds : ∀ e ∈ TokenKind.operators,
    (∀ e' ∈ TokenKind.operators, e'.2 = e.2 → e' = e) ∧ (∀ e' ∈ TokenKind.keywords, e'.2 ≠ e.2) ∧
      e.2 ∉ [TokenKind.ident, .intLit, .floatLit, .imagLit, .charLit, .stringLit, .rawStringLit] := by
  decide

theorem text_of_operator {u : List Char} {e : String × TokenKind} (he : e ∈ TokenKind.operators)
    (h : scan c (u ++ z) = .ok (.token e.2, u.length)) : c :: u = e.1.toList := by
  obtain ⟨hunique, hkeyword, hclass⟩ := operator_kinds e he
  simp only [mem_cons, not_mem_nil, or_false, not_or] at hclass
  rcases token_cases h hkeyword hclass.1 (by simp [hclass]) with ⟨hkind, -⟩ | ⟨hkind, -⟩ |
    ⟨e', he', hkind, hprefix, hlen⟩
  · exact absurd hkind hclass.2.2.2.2.2.1
  · exact absurd hkind hclass.2.2.2.2.2.2
  · obtain rfl := hunique e' he' hkind
    have hlen' : (c :: u).length = e'.1.toList.length := by
      rw [length_cons, hlen, String.length_toList]
    exact (prefix_of_prefix_length_le (prefix_append (c :: u) z) hprefix
      (Nat.le_of_eq hlen')).eq_of_length hlen'

/-- Whether a text has a line break in it. -/
def hasBreak (text : List Char) : Bool :=
  text.any isBreak

theorem length_takeWhile_lt_iff :
    ((text.takeWhile fun d => !isBreak d).length < text.length) ↔ hasBreak text = true := by
  induction text with
  | nil => simp [hasBreak]
  | cons d text ih => cases hd : isBreak d <;> simp_all [hasBreak]

/-- A lexeme has a line break in it only if it is a line break, a comment between marks or a
token. -/
theorem hasBreak_of_scan (h : scan c (v ++ z) = .ok (cls, v.length)) :
    (cls = .blank ∨ cls = .lineComment ∨ cls = .byteOrderMark → hasBreak (c :: v) = false) ∧
      (cls = .newline → isBreak c = true) := by
  have hno : ∀ p : Char → Bool, (∀ d, p d = true → isBreak d = false) → v.all p = true →
      hasBreak v = false := by
    intro p hp hv
    rw [hasBreak, any_eq_false]
    intro d hd
    rw [hp d (all_eq_true.1 hv d hd)]
    exact Bool.false_ne_true
  rcases scan_cases h with ⟨rfl, hc, hn⟩ | ⟨rfl, hc, -⟩ | ⟨rfl, rfl, hn⟩ | ⟨rfl, rfl, cs', hcs, hn⟩ |
    ⟨rfl, -, -⟩ | ⟨kind, rfl, -⟩
  · have hv := (length_takeWhile_append.1 hn.symm).1
    have hspace : ∀ d, isSpace d = true → isBreak d = false := by
      intro d hd
      rcases hb : isBreak d with _ | _
      · rfl
      · rw [isSpace_eq_false_of_isBreak hb] at hd
        cases hd
    refine ⟨fun _ => ?_, by simp⟩
    rw [hasBreak, any_cons, hspace c hc]
    exact hno isSpace hspace hv
  · exact ⟨by simp, fun _ => hc⟩
  · obtain rfl := length_eq_zero_iff.1 hn
    exact ⟨fun _ => rfl, by simp⟩
  · refine ⟨fun _ => ?_, by simp⟩
    cases v with
    | nil => simp at hn
    | cons d v =>
      obtain ⟨rfl, rfl⟩ := List.cons.inj hcs
      rw [length_cons, Nat.add_right_cancel_iff] at hn
      have hv := (length_takeWhile_append.1 hn.symm).1
      have hrest : hasBreak v = false := by
        rw [hasBreak, any_eq_false]
        intro d hd
        simpa using all_eq_true.1 hv d hd
      simpa [hasBreak, isBreak] using hrest
  · exact ⟨by simp, by simp⟩
  · exact ⟨by simp, by simp⟩

/-! ## Pieces -/

/-- A lexeme with its text. -/
structure Piece where
  cls : Class
  text : List Char
deriving DecidableEq, Repr

/-- A text is cut into pieces, each of them the lexeme that is read where it starts.  A byte order
mark stands only at the `start` of a text. -/
inductive Cut : (start : Bool) → List Char → List Piece → Prop
  | nil {start : Bool} : Cut start [] []
  | cons {start : Bool} {cls : Class} {c : Char} {v z : List Char} {ps : List Piece}
      (hscan : scan c (v ++ z) = .ok (cls, v.length)) (hmark : cls = .byteOrderMark → start = true)
      (hrest : Cut false z ps) : Cut start (c :: v ++ z) (⟨cls, c :: v⟩ :: ps)

def textOf (ps : List Piece) : List Char :=
  ps.flatMap (·.text)

theorem Cut.text_eq (h : Cut start cs ps) : textOf ps = cs := by
  induction h with
  | nil => rfl
  | cons _ _ _ ih => rw [textOf, flatMap_cons, ← textOf, ih]

/-- The part of a text before its first line break. -/
def beforeBreak (text : List Char) : List Char :=
  text.takeWhile fun d => !isBreak d

/-- The part of a text from its first line break on. -/
def fromBreak (text : List Char) : List Char :=
  text.dropWhile fun d => !isBreak d

theorem beforeBreak_append_fromBreak (text : List Char) :
    beforeBreak text ++ fromBreak text = text :=
  takeWhile_append_dropWhile

/-- The tokens of pieces from the offset `pos` on, with the characters `lead` skipped since the last
token; `open_` says whether that token lets a line break end the statement. -/
def tokensOf (pos : Nat) (lead : List Char) (open_ : Bool) : List Piece → List Token
  | [] => if open_ then [Token.inserted lead pos] else []
  | ⟨cls, text⟩ :: ps =>
    match cls with
    | .token kind =>
      ⟨kind, String.ofList lead, String.ofList text, pos⟩
        :: tokensOf (pos + byteSize text) [] kind.endsStatement ps
    | _ =>
      if open_ && hasBreak text then
        Token.inserted (lead ++ beforeBreak text) (pos + byteSize (beforeBreak text))
          :: tokensOf (pos + byteSize text) (fromBreak text) false ps
      else tokensOf (pos + byteSize text) (lead ++ text) open_ ps

theorem tokensOf_token (pos : Nat) (lead : List Char) (open_ : Bool) (kind : TokenKind)
    (text : List Char) (ps : List Piece) :
    tokensOf pos lead open_ (⟨.token kind, text⟩ :: ps)
      = ⟨kind, String.ofList lead, String.ofList text, pos⟩
        :: tokensOf (pos + byteSize text) [] kind.endsStatement ps := by
  rw [tokensOf]

theorem tokensOf_trivia (hcls : ∀ kind, cls ≠ .token kind) (pos : Nat) (lead : List Char)
    (open_ : Bool) (text : List Char) (ps : List Piece) :
    tokensOf pos lead open_ (⟨cls, text⟩ :: ps)
      = if open_ && hasBreak text then
          Token.inserted (lead ++ beforeBreak text) (pos + byteSize (beforeBreak text))
            :: tokensOf (pos + byteSize text) (fromBreak text) false ps
        else tokensOf (pos + byteSize text) (lead ++ text) open_ ps := by
  cases cls with
  | token kind => exact absurd rfl (hcls kind)
  | _ =>
    rw [tokensOf]
    intro kind h
    cases h

/-- One lexeme that is no token, at the start of a text. -/
theorem tokensFrom_trivia (hscan : scan c (v ++ z) = .ok (cls, v.length))
    (hcls : ∀ kind, cls ≠ .token kind) (hmark : cls = .byteOrderMark → pos = 0) (lead : List Char)
    (open_ : Bool) :
    tokensFrom pos lead open_ (c :: v ++ z)
      = if open_ && hasBreak (c :: v) then
          (tokensFrom (pos + byteSize (c :: v)) (fromBreak (c :: v)) false z).map
            (Token.inserted (lead ++ beforeBreak (c :: v))
              (pos + byteSize (beforeBreak (c :: v))) :: ·)
        else tokensFrom (pos + byteSize (c :: v)) (lead ++ c :: v) open_ z := by
  obtain ⟨hno, hnewline⟩ := hasBreak_of_scan hscan
  rw [cons_append, tokensFrom, hscan]
  simp only [take_left, drop_left]
  cases cls with
  | token kind => exact absurd rfl (hcls kind)
  | blank => simp [hno (.inl rfl)]
  | lineComment => simp [hno (.inr (.inl rfl))]
  | byteOrderMark => simp [hno (.inr (.inr rfl)), hmark rfl]
  | newline =>
    have hc := hnewline rfl
    have hbreak : hasBreak (c :: v) = true := by simp [hasBreak, hc]
    have hbefore : beforeBreak (c :: v) = [] := by simp [beforeBreak, hc]
    have hfrom : fromBreak (c :: v) = c :: v := by simp [fromBreak, hc]
    cases open_ with
    | false => simp
    | true =>
      simp only [hbreak, hbefore, hfrom, Bool.and_self, if_true, append_nil,
        byteSize_nil, Nat.add_zero]
      rcases tokensFrom (pos + byteSize (c :: v)) (c :: v) false z with e | ts <;> rfl
  | blockComment =>
    have hdrop : (c :: v).drop ((c :: v).takeWhile fun d => !isBreak d).length
        = fromBreak (c :: v) := by
      conv => lhs; arg 2; rw [← takeWhile_append_dropWhile (p := fun d => !isBreak d) (l := c :: v)]
      exact drop_left
    simp only [length_takeWhile_lt_iff, hdrop]
    cases hopen : open_ && hasBreak (c :: v) with
    | false =>
      have : ¬(open_ && decide (hasBreak (c :: v) = true)) = true := by simpa using hopen
      simp only [if_neg this, Bool.false_eq_true, if_false]
    | true =>
      have : (open_ && decide (hasBreak (c :: v) = true)) = true := by simpa using hopen
      simp only [if_pos this, if_true]
      rcases tokensFrom (pos + byteSize (c :: v)) (fromBreak (c :: v)) false z with e | ts <;> rfl

theorem Cut.text_ne_nil (h : Cut start cs ps) : ∀ p ∈ ps, p.text ≠ [] := by
  induction h with
  | nil => simp
  | cons _ _ _ ih => simpa using ih

theorem ok_of_map {ε α β : Type} {f : α → β} {x : Except ε α} {b : β} (h : x.map f = .ok b) :
    ∃ a, x = .ok a ∧ b = f a := by
  cases x with
  | error e => cases h
  | ok a => exact ⟨a, rfl, (Except.ok.inj h).symm⟩

/-- A text that is cut into pieces has their tokens. -/
theorem tokensFrom_of_cut (h : Cut start cs ps) (hstart : start = (pos == 0)) (lead : List Char)
    (open_ : Bool) : tokensFrom pos lead open_ cs = .ok (tokensOf pos lead open_ ps) := by
  induction h generalizing pos lead open_ with
  | nil => rw [tokensFrom, tokensOf]
  | @cons start cls c v z ps hscan hmark hrest ih =>
    have hnext : false = (pos + byteSize (c :: v) == 0) :=
      (beq_false_of_ne (byteSize_cons_ne_zero pos c v)).symm
    rcases cls.token_or with ⟨kind, rfl⟩ | hcls
    · rw [tokensFrom_token pos lead open_ hscan, ih hnext, tokensOf_token]
      rfl
    · have hzero : cls = .byteOrderMark → pos = 0 := by
        intro hm
        rw [hmark hm] at hstart
        exact eq_of_beq hstart.symm
      rw [tokensFrom_trivia hscan hcls hzero, tokensOf_trivia hcls, ih hnext, ih hnext]
      split <;> rfl

/-- The tokens of a text are those of the pieces that it is cut into. -/
theorem tokensFrom_eq_ok_iff {lead : List Char} {open_ : Bool} :
    tokensFrom pos lead open_ cs = .ok ts
      ↔ ∃ ps, Cut (pos == 0) cs ps ∧ ts = tokensOf pos lead open_ ps := by
  constructor
  · -- Each lexeme is one piece; what is left behind it is a shorter text at a later offset.
    intro h
    induction hlen : cs.length using Nat.strong_induction_on generalizing pos lead open_ cs ts with
    | _ n ih =>
      cases cs with
      | nil =>
        rw [tokensFrom] at h
        exact ⟨[], .nil, (Except.ok.inj h).symm⟩
      | cons c cs =>
        obtain ⟨v, z, cls, rfl, hscan, -⟩ := tokensFrom_cases h
        have hsmall : z.length < n := by
          rw [← hlen, length_cons, length_append]
          omega
        have hnext : (pos + byteSize (c :: v) == 0) = false :=
          beq_false_of_ne (byteSize_cons_ne_zero pos c v)
        rcases cls.token_or with ⟨kind, rfl⟩ | hcls
        · rw [← cons_append, tokensFrom_token pos lead open_ hscan] at h
          obtain ⟨ts', hts', rfl⟩ := ok_of_map h
          obtain ⟨ps, hps, rfl⟩ := ih _ hsmall hts' rfl
          rw [hnext] at hps
          exact ⟨⟨.token kind, c :: v⟩ :: ps, .cons hscan (by simp) hps,
            (tokensOf_token pos lead open_ kind (c :: v) ps).symm⟩
        · have hmark : cls = .byteOrderMark → pos = 0 := by
            rintro rfl
            by_contra hpos
            rw [tokensFrom, hscan] at h
            simp [hpos] at h
          have hstart : cls = .byteOrderMark → (pos == 0) = true := fun hm => by rw [hmark hm]; rfl
          rw [← cons_append, tokensFrom_trivia hscan hcls hmark] at h
          cases hbreak : open_ && hasBreak (c :: v) with
          | true =>
            rw [hbreak, if_pos rfl] at h
            obtain ⟨ts', hts', rfl⟩ := ok_of_map h
            obtain ⟨ps, hps, rfl⟩ := ih _ hsmall hts' rfl
            rw [hnext] at hps
            refine ⟨⟨cls, c :: v⟩ :: ps, .cons hscan hstart hps, ?_⟩
            rw [tokensOf_trivia hcls, hbreak, if_pos rfl]
          | false =>
            rw [hbreak, if_neg Bool.false_ne_true] at h
            obtain ⟨ps, hps, rfl⟩ := ih _ hsmall h rfl
            rw [hnext] at hps
            refine ⟨⟨cls, c :: v⟩ :: ps, .cons hscan hstart hps, ?_⟩
            rw [tokensOf_trivia hcls, hbreak, if_neg Bool.false_ne_true]
  · rintro ⟨ps, hcut, rfl⟩
    exact tokensFrom_of_cut hcut rfl lead open_

end Lexeme

/-- The tokens of a text are those of the pieces that it is cut into. -/
theorem tokenize_eq_ok_iff :
    tokenize text = .ok ts
      ↔ ∃ ps, Lexeme.Cut true text ps ∧ ts = Lexeme.tokensOf 0 [] false ps :=
  Lexeme.tokensFrom_eq_ok_iff

/-! ## Where tokens stand -/

/-- Tokens lie in a text that starts at the offset `pos`, each behind what it carries as its lead.
A token without a text has something between it and the next one. -/
inductive Tiled : (pos : Nat) → List Char → List Token → Prop
  | nil {pos : Nat} {cs : List Char} : Tiled pos cs []
  | cons {pos : Nat} {v z : List Char} {t : Token} {ts : List Token}
      (hlead : t.lead = String.ofList v) (hstart : t.start = pos + byteSize v)
      (hsome : t.text = "" → ∀ u ∈ ts.head?, u.lead ≠ "") (hrest : Tiled t.stop z ts) :
      Tiled pos (v ++ t.text.toList ++ z) (t :: ts)

namespace Lexeme

/-- What was skipped before pieces is carried by their first token. -/
theorem lead_of_tokensOf {lead : List Char} {open_ : Bool} {t : Token}
    (h : t ∈ (tokensOf pos lead open_ ps).head?) : ∃ v, t.lead = String.ofList (lead ++ v) := by
  induction ps generalizing pos lead with
  | nil =>
    rw [tokensOf] at h
    cases open_ with
    | true =>
      cases h
      exact ⟨[], by rw [append_nil]; rfl⟩
    | false => cases h
  | cons p ps ih =>
    obtain ⟨cls, text⟩ := p
    rcases cls.token_or with ⟨kind, rfl⟩ | hcls
    · rw [tokensOf_token] at h
      cases h
      exact ⟨[], by rw [append_nil]⟩
    · rw [tokensOf_trivia hcls] at h
      split at h
      · cases h
        exact ⟨beforeBreak text, rfl⟩
      · obtain ⟨v, hv⟩ := ih h
        exact ⟨text ++ v, by rw [hv, append_assoc]⟩

theorem tiled_tokensOf (hps : ∀ p ∈ ps, p.text ≠ []) (pos : Nat) (lead : List Char) (open_ : Bool) :
    Tiled pos (lead ++ textOf ps) (tokensOf (pos + byteSize lead) lead open_ ps) := by
  induction ps generalizing pos lead open_ with
  | nil =>
    cases open_ with
    | false => exact .nil
    | true =>
      have h := Tiled.cons (t := Token.inserted lead (pos + byteSize lead)) (z := []) rfl rfl
        (by simp) .nil
      simpa [textOf, tokensOf, Token.inserted] using h
  | cons p ps ih =>
    obtain ⟨cls, text⟩ := p
    have hps' : ∀ p ∈ ps, p.text ≠ [] := fun p hp => hps p (.tail _ hp)
    have htext : text ≠ [] := hps ⟨cls, text⟩ (.head _)
    rcases cls.token_or with ⟨kind, rfl⟩ | hcls
    · rw [tokensOf_token]
      have hstop : pos + byteSize lead + byteSize text
          = (⟨kind, String.ofList lead, String.ofList text, pos + byteSize lead⟩ : Token).stop
              + byteSize [] := by
        rw [Token.stop, ← byteSize_toList, String.toList_ofList, byteSize_nil, Nat.add_zero]
      rw [hstop]
      have h := Tiled.cons (t := ⟨kind, String.ofList lead, String.ofList text,
        pos + byteSize lead⟩) rfl rfl ?_ (ih hps' _ [] kind.endsStatement)
      · rw [String.toList_ofList] at h
        simpa [textOf] using h
      · intro hempty
        exact absurd (by simpa using hempty) htext
    · rw [tokensOf_trivia hcls]
      split
      · rename_i hbreak
        obtain ⟨hopen, hhas⟩ := Bool.and_eq_true_iff.1 hbreak
        have hsize := congrArg byteSize (beforeBreak_append_fromBreak text)
        rw [byteSize_append] at hsize
        have hne : fromBreak text ≠ [] := by
          intro hnil
          have hlen := congrArg List.length (beforeBreak_append_fromBreak text)
          rw [hnil, append_nil] at hlen
          have hlt := length_takeWhile_lt_iff.2 hhas
          rw [← beforeBreak] at hlt
          omega
        have hstop : pos + byteSize lead + byteSize text
            = (Token.inserted (lead ++ beforeBreak text)
                (pos + byteSize lead + byteSize (beforeBreak text))).stop
              + byteSize (fromBreak text) := by
          change _ = pos + byteSize lead + byteSize (beforeBreak text) + 0 + _
          omega
        rw [hstop]
        have h := Tiled.cons (t := Token.inserted (lead ++ beforeBreak text)
          (pos + byteSize lead + byteSize (beforeBreak text))) rfl
          (by rw [byteSize_append, Nat.add_assoc]; rfl) ?_ (ih hps' _ (fromBreak text) false)
        · have htexts : lead ++ textOf (⟨cls, text⟩ :: ps)
              = lead ++ beforeBreak text ++ "".toList ++ (fromBreak text ++ textOf ps) := by
            rw [textOf, flatMap_cons, ← textOf]
            conv => lhs; rw [← beforeBreak_append_fromBreak text]
            simp
          rw [htexts]
          exact h
        · intro _ u hu
          obtain ⟨v, hv⟩ := lead_of_tokensOf hu
          rw [hv]
          intro hempty
          have := congrArg String.toList hempty
          rw [String.toList_ofList] at this
          exact hne (append_eq_nil_iff.1 this).1
      · have h := ih hps' pos (lead ++ text) open_
        rw [byteSize_append, ← Nat.add_assoc] at h
        rw [textOf, flatMap_cons, ← textOf, ← append_assoc]
        exact h

end Lexeme

theorem tiled_of_tokenize (h : tokenize text = .ok ts) : Tiled 0 text ts := by
  obtain ⟨ps, hcut, rfl⟩ := tokenize_eq_ok_iff.1 h
  have htiled := Lexeme.tiled_tokensOf hcut.text_ne_nil 0 [] false
  rw [hcut.text_eq] at htiled
  exact htiled

theorem isRead_of_tokenize (h : tokenize text = .ok ts) {t : Token} (ht : t ∈ ts) : t.IsRead := by
  obtain ⟨as, bs, rfl⟩ := append_of_mem ht
  have hlexed : Lexed (as ++ t :: bs) := ⟨0, [], false, text, h⟩
  exact hlexed.append.isRead

namespace Token

variable {t : Token}

/-- Only a semicolon can have an empty text. -/
theorem IsRead.start_lt_stop (h : t.IsRead) (hsemi : t.kind ≠ .semi) : t.start < t.stop := by
  rcases h with h | ⟨c, u, z, htext, -⟩
  · exact absurd h hsemi
  · have hpos := c.utf8Size_pos
    rw [Token.stop, ← byteSize_toList, htext, String.toList_ofList, byteSize_cons]
    omega

theorem start_le_stop (t : Token) : t.start ≤ t.stop :=
  Nat.le_add_right _ _

theorem IsRead.text_eq (h : t.IsRead) (hsemi : t.kind ≠ .semi) {spelling : String}
    (he : (spelling, t.kind) ∈ TokenKind.operators) : t.text = spelling := by
  rcases h with h | ⟨c, u, z, htext, hscan⟩
  · exact absurd h hsemi
  · rw [htext, Lexeme.text_of_operator he hscan, String.ofList_toList]

end Token

/-- The end of the last of some tokens; `behind` if there are none. -/
def lastStop (behind : Nat) (ts : List Token) : Nat :=
  (ts.getLast?.map Token.stop).getD behind

@[simp] theorem lastStop_nil (behind : Nat) : lastStop behind [] = behind :=
  rfl

@[simp] theorem lastStop_cons (behind : Nat) (t : Token) (ts : List Token) :
    lastStop behind (t :: ts) = lastStop t.stop ts := by
  cases ts with
  | nil => rfl
  | cons u ts => rw [lastStop, lastStop, getLast?_cons_cons]; simp [getLast?_cons]

theorem lastStop_append (behind : Nat) (ts us : List Token) :
    lastStop behind (ts ++ us) = lastStop (lastStop behind ts) us := by
  induction ts generalizing behind with
  | nil => rfl
  | cons t ts ih => rw [cons_append, lastStop_cons, lastStop_cons, ih]

namespace Tiled

variable {pos : Nat} {cs : List Char} {t u : Token} {ts us : List Token}

/-- A token has its text at its offset. -/
theorem stands (h : Tiled pos cs ts) (ht : t ∈ ts) :
    ∃ a b, cs = a ++ t.text.toList ++ b ∧ pos + byteSize a = t.start := by
  induction h with
  | nil => cases ht
  | @cons pos v z t' ts hlead hstart hsome hrest ih =>
    rcases mem_cons.1 ht with rfl | ht
    · exact ⟨v, z, rfl, hstart.symm⟩
    · obtain ⟨a, b, rfl, hsize⟩ := ih ht
      refine ⟨v ++ t'.text.toList ++ a, b, by simp, ?_⟩
      rw [byteSize_append, byteSize_append, ← hsize, Token.stop, hstart,
        byteSize_toList]
      omega

theorem le_start (h : Tiled pos cs ts) (ht : t ∈ ts) : pos ≤ t.start := by
  obtain ⟨a, b, -, hsize⟩ := h.stands ht
  omega

/-- Every token ends before the next one starts, and no two of them start at the same offset. -/
theorem pairwise (h : Tiled pos cs ts) :
    ts.Pairwise fun t u => t.stop ≤ u.start ∧ t.start < u.start := by
  induction h with
  | nil => exact .nil
  | @cons pos v z t ts hlead hstart hsome hrest ih =>
    refine .cons ?_ ih
    intro u hu
    refine ⟨hrest.le_start hu, ?_⟩
    by_cases htext : t.text = ""
    · -- The first token behind has a lead, and the others start no earlier.
      cases hrest with
      | nil => cases hu
      | @cons _ v' z' t' ts' hlead' hstart' _ hrest' =>
        have hv' : v' ≠ [] := by
          rintro rfl
          exact hsome htext t' rfl hlead'
        have hpos : 0 < byteSize v' := by
          cases v' with
          | nil => exact absurd rfl hv'
          | cons d v' =>
            have := d.utf8Size_pos
            rw [byteSize_cons]
            omega
        have hle : t'.start ≤ u.start := by
          rcases mem_cons.1 hu with rfl | hu
          · exact Nat.le_refl _
          · have := hrest'.le_start hu
            rw [Token.stop] at this
            omega
        rw [Token.stop] at hstart'
        omega
    · have hle := hrest.le_start hu
      have hpos : t.text.utf8ByteSize ≠ 0 := fun hzero => htext (String.utf8ByteSize_eq_zero_iff.1 hzero)
      rw [Token.stop] at hle
      omega

theorem append_right (h : Tiled pos cs (ts ++ us)) :
    ∃ v z, cs = v ++ z ∧ Tiled (pos + byteSize v) z us := by
  induction ts generalizing pos cs with
  | nil => exact ⟨[], cs, rfl, h⟩
  | cons t ts ih =>
    cases h with
    | @cons _ v z _ _ hlead hstart hsome hrest =>
      obtain ⟨v', z', rfl, h'⟩ := ih hrest
      refine ⟨v ++ t.text.toList ++ v', z', by simp, ?_⟩
      rw [byteSize_append, byteSize_append, byteSize_toList, ← Nat.add_assoc,
        ← Nat.add_assoc, ← hstart]
      exact h'

/-- Tokens at the start of a text, as they were written. -/
theorem written (h : Tiled pos cs (ts ++ us)) :
    ∃ z, cs = (String.join (ts.map fun t => t.lead ++ t.text)).toList ++ z ∧
      pos + byteSize (String.join (ts.map fun t => t.lead ++ t.text)).toList
        = lastStop pos ts := by
  induction ts generalizing pos cs with
  | nil => exact ⟨cs, rfl, rfl⟩
  | cons t ts ih =>
    cases h with
    | @cons _ v z _ _ hlead hstart hsome hrest =>
      obtain ⟨z', rfl, hsize⟩ := ih hrest
      rw [map_cons, String.join_cons, String.toList_append, String.toList_append, hlead,
        String.toList_ofList, lastStop_cons, ← hsize]
      refine ⟨z', by simp, ?_⟩
      rw [byteSize_append, byteSize_append, byteSize_toList t.text, Token.stop,
        hstart]
      omega

/-- From the start of one token to the end of another, the text is what the tokens carry. -/
theorem segment (h : Tiled pos cs (ts ++ (t :: us))) {vs ws : List Token} (hus : us = vs ++ ws) :
    ∃ a b, cs = a ++ (Parser.writtenText (t :: vs)).toList ++ b ∧
      pos + byteSize a = t.start ∧
      t.start + byteSize (Parser.writtenText (t :: vs)).toList = lastStop t.stop vs := by
  subst hus
  obtain ⟨v, z, rfl, h'⟩ := h.append_right
  cases h' with
  | @cons _ v' z' _ _ hlead hstart hsome hrest =>
    obtain ⟨w, rfl, hsize⟩ := hrest.written
    refine ⟨v ++ v', w, by simp [Parser.writtenText], ?_, ?_⟩
    · rw [byteSize_append, hstart]
      omega
    · rw [← hsize, Parser.writtenText, String.toList_append, byteSize_append,
        byteSize_toList t.text, Token.stop]
      omega

end Tiled

end Stubwright
