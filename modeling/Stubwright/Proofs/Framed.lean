import Stubwright.Proofs.Outline

/-!
# Texts that begin and end with a token

Such a text can be put between others.  Where a token stops before what follows it, the text has the
same tokens there as it has alone, apart from their offsets.

* `Lexeme.Cut.append`: where a token stops, two texts are cut one after the other.
-/

namespace Stubwright

open List

open Lexeme

/-- A text begins and ends with a token, the last one no semicolon, and `ts` are its tokens but for
a semicolon that is inserted at its end. -/
structure Framed (text : String) (ts : List Token) : Prop where
  tokens : ∃ inserted, tokenize text.toList = .ok (ts ++ inserted) ∧ ∀ t ∈ inserted, t.kind = .semi
  first : ∃ t ∈ ts.head?, t.lead = ""
  last : ∃ t ∈ ts.getLast?, t.kind ≠ .semi ∧ t.stop = text.utf8ByteSize

namespace Lexeme

/-! ## Cutting two texts -/

inductive EndWith (kind : TokenKind) : List Piece → Prop
  | last {text : List Char} : EndWith kind [⟨.token kind, text⟩]
  | cons {p : Piece} {ps : List Piece} (h : EndWith kind ps) : EndWith kind (p :: ps)

theorem Cut.mono {cs : List Char} {ps : List Piece} (h : Cut false cs ps) (start : Bool) :
    Cut start cs ps := by
  cases h with
  | nil => exact .nil
  | cons hscan hmark hrest => exact .cons hscan (fun hm => Bool.noConfusion (hmark hm)) hrest

/-- A lexeme in a text that ends with a token is read as well before more text where a token
stops. -/
theorem scan_append {c : Char} {v z k : List Char} {cls : Class}
    (h : scan c (v ++ z) = .ok (cls, v.length)) (hk : stopsToken k = true)
    (hz : z = [] → ∃ kind, cls = .token kind) : scan c (v ++ (z ++ k)) = .ok (cls, v.length) := by
  by_cases hcls : ∃ kind, cls = .token kind
  · obtain ⟨kind, rfl⟩ := hcls
    have hall : scan c (v ++ (z ++ [])) = .ok (.token kind, v.length) := by rwa [append_nil]
    exact scan_token_stop hall (by simp) hk
  · cases z with
    | nil => exact absurd (hz rfl) hcls
    | cons d z => exact scan_trivia_append (fun kind heq => hcls ⟨kind, heq⟩) h

theorem Cut.append {start : Bool} {cs k : List Char} {kind : TokenKind} {ps qs : List Piece}
    (h : Cut start cs ps) (hps : EndWith kind ps) (hk : stopsToken k = true) (hqs : Cut false k qs) :
    Cut start (cs ++ k) (ps ++ qs) := by
  induction hps generalizing start cs with
  | last =>
    cases h with
    | cons hscan hmark hrest =>
      cases hrest
      rw [append_assoc]
      exact .cons (scan_append hscan hk fun _ => ⟨kind, rfl⟩) hmark hqs
  | cons hps ih =>
    cases h with
    | cons hscan hmark hrest =>
      rw [append_assoc]
      refine .cons (scan_append hscan hk fun hz => ?_) hmark (ih hrest)
      subst hz
      cases hrest
      cases hps

/-! ## Tokens of two texts -/

theorem textOf_cons (p : Piece) (ps : List Piece) : textOf (p :: ps) = p.text ++ textOf ps :=
  flatMap_cons

theorem exists_tokensOf_cons (p : Piece) (pos : Nat) (lead : List Char) (open_ : Bool) :
    ∃ ts lead' open', (∀ ps, tokensOf pos lead open_ (p :: ps)
        = ts ++ tokensOf (pos + Text.byteSize p.text) lead' open' ps) ∧
      ∀ t ∈ ts, t.kind ≠ .semi → p.cls = .token t.kind ∧ t.stop = pos + Text.byteSize p.text := by
  obtain ⟨cls, text⟩ := p
  rcases cls.token_or with ⟨kind, rfl⟩ | hcls
  · refine ⟨[_], [], kind.endsStatement, fun ps => tokensOf_token pos lead open_ kind text ps, ?_⟩
    intro t ht _
    rw [mem_singleton.1 ht]
    refine ⟨rfl, ?_⟩
    rw [Token.stop, ← Text.byteSize_toList, String.toList_ofList]
  · simp only [tokensOf_trivia hcls]
    split
    · refine ⟨[_], _, _, fun ps => rfl, fun t ht hkind => ?_⟩
      rw [mem_singleton.1 ht] at hkind
      exact absurd rfl hkind
    · exact ⟨[], _, _, fun ps => rfl, by simp⟩

theorem exists_tokensOf_append {kind : TokenKind} {ps : List Piece} (h : EndWith kind ps) (pos : Nat)
    (lead : List Char) (open_ : Bool) :
    ∃ ts, (∃ t ∈ ts.getLast?, t.kind = kind) ∧ ∀ qs, tokensOf pos lead open_ (ps ++ qs)
      = ts ++ tokensOf (pos + Text.byteSize (textOf ps)) [] kind.endsStatement qs := by
  induction h generalizing pos lead open_ with
  | @last text =>
    refine ⟨[⟨kind, String.ofList lead, String.ofList text, pos⟩], ⟨_, rfl, rfl⟩, fun qs => ?_⟩
    have htext : textOf [⟨.token kind, text⟩] = text := by simp [textOf]
    rw [htext]
    exact tokensOf_token pos lead open_ kind text qs
  | @cons p ps hps ih =>
    obtain ⟨ts, lead', open', htokens, -⟩ := exists_tokensOf_cons p pos lead open_
    obtain ⟨us, ⟨t, ht, hkind⟩, hus⟩ := ih (pos + Text.byteSize p.text) lead' open'
    refine ⟨ts ++ us, ⟨t, mem_getLast?_append_of_mem_getLast? ht, hkind⟩, fun qs => ?_⟩
    rw [cons_append, htokens, hus, textOf_cons, Text.byteSize_append, append_assoc,
      Nat.add_assoc]

/-- Unless the last piece is a token and no semicolon, every token that is no semicolon ends
before it. -/
theorem stop_le_of_mem_tokensOf {p : Piece} (hp : ∀ kind, p.cls = .token kind → kind = .semi)
    {qs : List Piece} {pos : Nat} {lead : List Char} {open_ : Bool} {t : Token}
    (ht : t ∈ tokensOf pos lead open_ (qs ++ [p])) (hkind : t.kind ≠ .semi) :
    t.stop ≤ pos + Text.byteSize (textOf qs) := by
  induction qs generalizing pos lead open_ with
  | nil =>
    obtain ⟨ts, lead', open', htokens, hts⟩ := exists_tokensOf_cons p pos lead open_
    rw [nil_append, htokens] at ht
    rcases mem_append.1 ht with ht | ht
    · exact absurd (hp _ (hts t ht hkind).1) hkind
    · rw [tokensOf] at ht
      split at ht
      · rw [mem_singleton.1 ht] at hkind
        exact absurd rfl hkind
      · cases ht
  | cons q qs ih =>
    obtain ⟨ts, lead', open', htokens, hts⟩ := exists_tokensOf_cons q pos lead open_
    rw [cons_append, htokens] at ht
    rw [textOf_cons, Text.byteSize_append, ← Nat.add_assoc]
    rcases mem_append.1 ht with ht | ht
    · rw [(hts t ht hkind).2]
      exact Nat.le_add_right _ _
    · exact ih ht

end Lexeme

/-! ## Framed texts -/

/-- Lists of tokens with semicolons behind them are the same if neither ends with one. -/
theorem eq_of_append_semis {ts us semis semis' : List Token} (h : ts ++ semis = us ++ semis')
    (hts : ∃ t ∈ ts.getLast?, t.kind ≠ .semi) (hus : ∃ t ∈ us.getLast?, t.kind ≠ .semi)
    (hsemis : ∀ t ∈ semis, t.kind = .semi) (hsemis' : ∀ t ∈ semis', t.kind = .semi) : ts = us := by
  have hnil : ∀ {vs ws : List Token}, (∃ t ∈ (vs ++ ws).getLast?, t.kind ≠ .semi) →
      (∀ t ∈ ws, t.kind = .semi) → ws = [] := by
    rintro vs ws ⟨t, ht, hkind⟩ hws
    by_contra hne
    rw [getLast?_append_of_ne_nil _ hne] at ht
    exact hkind (hws t (mem_of_getLast? ht))
  rcases append_eq_append_iff.1 h with ⟨ws, rfl, rfl⟩ | ⟨ws, rfl, rfl⟩
  · rw [hnil hus fun t ht => hsemis t (mem_append_left _ ht), append_nil]
  · rw [hnil hts fun t ht => hsemis' t (mem_append_left _ ht), append_nil]

namespace Framed

variable {text : String} {ts : List Token} {ps : List Piece}

theorem endWith (h : Framed text ts) (hcut : Cut true text.toList ps)
    (hmem : ∀ t ∈ ts, t ∈ tokensOf 0 [] false ps) : ∃ kind, kind ≠ .semi ∧ EndWith kind ps := by
  obtain ⟨t, ht, hkind, hstop⟩ := h.last
  have ht' := hmem t (mem_of_getLast? ht)
  rcases eq_nil_or_concat' ps with rfl | ⟨qs, p, rfl⟩
  · cases ht'
  by_cases hp : ∀ kind, p.cls = .token kind → kind = .semi
  · have hle := stop_le_of_mem_tokensOf hp ht' hkind
    have hsize : text.utf8ByteSize = Text.byteSize (textOf qs) + Text.byteSize p.text := by
      rw [← Text.byteSize_toList, ← hcut.text_eq, ← Text.byteSize_append]
      simp [textOf]
    have hne : p.text ≠ [] := hcut.text_ne_nil p (by simp)
    obtain ⟨c, v, hv⟩ := exists_cons_of_ne_nil hne
    have hpos := byteSize_cons_ne_zero 0 c v
    rw [← hv] at hpos
    omega
  · push Not at hp
    obtain ⟨kind, hcls, hsemi⟩ := hp
    obtain ⟨cls, w⟩ := p
    obtain rfl : cls = .token kind := hcls
    refine ⟨kind, hsemi, ?_⟩
    clear hcut hmem ht'
    induction qs with
    | nil => exact .last
    | cons q qs ih => exact .cons ih

theorem begins (h : Framed text ts) (hcut : Cut true text.toList ps)
    {us : List Token} (htokens : tokensOf 0 [] false ps = ts ++ us) :
    Cut false text.toList ps ∧
      ∀ open_ qs, entries [] open_ (ps ++ qs) = entries [] false (ps ++ qs) := by
  obtain ⟨t, ht, hlead⟩ := h.first
  have hhead : t ∈ (tokensOf 0 [] false ps).head? := by
    rw [htokens]
    exact mem_head?_append_of_mem_head? ht
  generalize text.toList = cs at hcut ⊢
  cases hcut with
  | nil => cases hhead
  | @cons _ cls c v z ps hscan hmark hrest =>
    rcases cls.token_or with ⟨kind, rfl⟩ | hcls
    · refine ⟨.cons hscan (fun hm => by cases hm) hrest, fun open_ qs => ?_⟩
      rw [cons_append, entries_token, entries_token]
    · -- what is skipped would stand before the first token
      rw [tokensOf_trivia hcls, if_neg (by simp)] at hhead
      obtain ⟨w, hw⟩ := lead_of_tokensOf hhead
      rw [hlead] at hw
      exact absurd (congrArg String.toList hw) (by simp)

theorem writtenText_eq (h : Framed text ts) : Parser.writtenText ts = text := by
  obtain ⟨semis, htokenize, -⟩ := h.tokens
  obtain ⟨first, hfirst, hlead⟩ := h.first
  obtain ⟨last, hlast, -, hstop⟩ := h.last
  obtain ⟨z, htext, hsize⟩ := (tiled_of_tokenize htokenize).written
  have hjoin : String.join (ts.map fun t => t.lead ++ t.text) = Parser.writtenText ts := by
    cases ts with
    | nil => cases hfirst
    | cons t ts =>
      obtain rfl : t = first := Option.some.inj hfirst
      simp [Parser.writtenText, String.join_cons, hlead]
  rw [hjoin] at htext hsize
  have hz : Text.byteSize z = 0 := by
    have hsum := congrArg Text.byteSize htext
    have hend : lastStop 0 ts = text.utf8ByteSize := by
      rw [lastStop, Option.mem_def.1 hlast, Option.map_some, Option.getD_some, hstop]
    rw [Text.byteSize_append, Text.byteSize_toList] at hsum
    omega
  cases z with
  | nil => exact String.toList_injective (by rw [htext, append_nil])
  | cons c z => exact absurd hz (by simpa using byteSize_cons_ne_zero 0 c z)

/-- A framed text before one where a token stops: how it is cut, and which tokens it has there. -/
theorem exists_pieces (h : Framed text ts) :
    ∃ ps open', tokenize text.toList = .ok (ts ++ tokensOf text.utf8ByteSize [] open' []) ∧
      (∀ k qs, stopsToken k = true → Cut false k qs → Cut false (text.toList ++ k) (ps ++ qs)) ∧
      ∀ pos open_, ∃ us, us.map Token.entry = ts.map Token.entry ∧ ∀ qs,
        tokensOf pos [] open_ (ps ++ qs) = us ++ tokensOf (pos + text.utf8ByteSize) [] open' qs := by
  obtain ⟨semis, htokenize, hsemis⟩ := h.tokens
  obtain ⟨ps, hcut, htokens⟩ := tokenize_eq_ok_iff.1 htokenize
  obtain ⟨kind, hkind, hends⟩ :=
    h.endWith hcut fun t ht => htokens ▸ mem_append_left semis ht
  obtain ⟨hcut', hopen⟩ := h.begins hcut htokens.symm
  have hsize : Text.byteSize (textOf ps) = text.utf8ByteSize := by
    rw [hcut.text_eq, Text.byteSize_toList]
  -- alone, the text has the tokens it has before others
  obtain ⟨vs, ⟨t, ht, rfl⟩, hvs⟩ := exists_tokensOf_append hends 0 [] false
  have halone := hvs []
  rw [append_nil, ← htokens, hsize, Nat.zero_add] at halone
  have htail : ∀ u ∈ tokensOf text.utf8ByteSize [] t.kind.endsStatement [], u.kind = .semi := by
    intro u hu
    rw [tokensOf] at hu
    split at hu
    · rw [mem_singleton.1 hu]
      rfl
    · cases hu
  obtain ⟨u, hu, hlast, -⟩ := h.last
  obtain rfl : ts = vs := eq_of_append_semis halone ⟨u, hu, hlast⟩ ⟨t, ht, hkind⟩ hsemis htail
  refine ⟨ps, t.kind.endsStatement, by rw [htokenize, halone], ?_, ?_⟩
  · exact fun k qs hk hqs => hcut'.append hends hk hqs
  · intro pos open_
    obtain ⟨us, -, hus⟩ := exists_tokensOf_append hends pos [] open_
    rw [hsize] at hus
    refine ⟨us, ?_, hus⟩
    have hentries := hopen open_ []
    rw [← map_entry_tokensOf _ pos, ← map_entry_tokensOf _ 0, hus, hvs, map_append,
      map_append, map_entry_tokensOf, map_entry_tokensOf] at hentries
    exact append_cancel_right hentries

end Framed

end Stubwright
