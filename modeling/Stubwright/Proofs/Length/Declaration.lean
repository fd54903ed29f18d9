import Stubwright.Proofs.Framed
import Stubwright.Proofs.Length

/-!
# Declared arrays

A declaration of a name, a bracketed length and a type declares an array type, unless the length is
a union with a star.

* `Parser.yields_bracketed`, `Parser.yields_file`: its tokens are read in this way.
-/

namespace Stubwright

open List

open Lexeme

/-! ## The tokens of a declaration -/

/-- What a declared name with a bracketed length before a type is read as, by the kinds of the tokens
of the length: an array type, or the type with a type parameter. -/
structure TypeSpec.Bracketed (name : String) (kinds : List TokenKind) (length : String)
    (t : TypeExpr) (spec : TypeSpec) : Prop where
  name : spec.name = name
  isAlias : spec.isAlias = false
  array : ¬ StarUnion kinds → spec.typeParams = [] ∧ spec.type = .array length t
  union : StarUnion kinds → ∃ name terms,
    spec.typeParams = [⟨[name], .union terms⟩] ∧ spec.type = t

namespace Parser

/-- However deep it may be nested, a type is read from these tokens. -/
def ParsesType (ts rest : List Token) (t : TypeExpr) : Prop :=
  ∀ depth, ts.length < depth → Parses (typeWithin depth) ts rest t

variable {l close name : Token} {es us rest : List Token} {t : TypeExpr}

theorem ParsesType.type (h : ParsesType us rest t) : Parses type us rest t :=
  .type (h _ (Nat.lt_succ_self _))

theorem ParsesType.head_ne (h : ParsesType us rest t) : us.head?.map (·.kind) ≠ some .assign := by
  intro hkind
  obtain ⟨b, hok⟩ := h (us.length + 1) (Nat.lt_succ_self _) 0
  obtain ⟨o, s₁, hpeek, h₁⟩ := bind_ok hok
  obtain ⟨rfl, rfl⟩ := peek_ok hpeek
  rw [hkind] at h₁
  exact failHere_ok h₁

section

variable (hl : l.kind = .lBrack) (hes : LengthExpr (es.map (·.kind)) )
  (hclose : close.kind = .rBrack) (ht : ParsesType us rest t) {kw : Token}

include hl hes hclose ht

theorem parses_arrayType :
    Parses type (l :: (es ++ close :: us)) rest (.array (writtenText es) t) := by
  have hfirst : (es ++ close :: us).head?.map (·.kind) ≠ some .rBrack :=
    head_ne_of_spansExpr hes.spans fun _ => rfl
  have hlength : Parses arrayLength (es ++ close :: us) us (writtenText es) :=
    .arrayLength (spansLength_of_spansExpr hes.spans) hclose
  refine .type (.peek_next hl rfl ((Parses.eat_false hfirst).bind
    (hlength.bind ((ht _ ?_).bind .pure))))
  simp
  omega

theorem yields_bracketed (hname : name.kind = .ident) :
    Yields typeSpec (name :: l :: (es ++ close :: us)) rest
      (·.Bracketed name.text (es.map (·.kind)) (writtenText es) t) := by
  refine Yields.ahead.bind fun start _ => (Parses.identifier hname).bindYields ?_
  by_cases hunion : StarUnion (es.map (·.kind))
  · obtain ⟨param, terms, hparams⟩ := exists_parses_typeParams hl hclose hunion
    refine hparams.bindYields ((Parses.eat_false ht.head_ne).bindYields (ht.type.bindYields ?_))
    refine Yields.behind.bind fun stop _ => .pure ⟨rfl, rfl, fun hno => absurd hunion hno, ?_⟩
    exact fun _ => ⟨param, terms, rfl, rfl⟩
  · refine (parses_typeParams_nil hl hclose hes.spans hunion).bindYields ?_
    refine (Parses.eat_false (by simp [hl])).bindYields ?_
    refine (parses_arrayType hl hes hclose ht).bindYields ?_
    refine Yields.behind.bind fun stop _ => .pure ⟨rfl, rfl, fun _ => ⟨rfl, rfl⟩, ?_⟩
    exact fun h => absurd h hunion

theorem yields_typeDecl (hkw : kw.kind = .kwType) (hname : name.kind = .ident) :
    Yields typeDecl (kw :: name :: l :: (es ++ close :: us)) rest fun d =>
      ∃ span spec, d = .types span [spec] ∧
        spec.Bracketed name.text (es.map (·.kind)) (writtenText es) t := by
  have hspecs : Yields (grouped typeSpec) (name :: l :: (es ++ close :: us)) rest fun r =>
      ∃ spec, r.2 = [spec] ∧ spec.Bracketed name.text (es.map (·.kind)) (writtenText es) t := by
    refine Parses.isAt.bindYields ?_
    rw [head?_cons, Option.map_some, hname]
    refine (yields_bracketed hl hes hclose ht hname).bind fun spec hspec => ?_
    exact .pure ⟨spec, rfl, hspec⟩
  refine Yields.ahead.bind fun start _ => (Parses.expect hkw).bindYields (hspecs.bind ?_)
  rintro ⟨parens, _⟩ ⟨spec, rfl, hspec⟩
  exact Yields.behind.bind fun stop _ => .pure ⟨_, spec, rfl, hspec⟩

/-- The declaration is the last one of a file. -/
theorem yields_decls (hkw : kw.kind = .kwType) (hname : name.kind = .ident)
    (hrest : rest = [] ∨ ∃ semi, rest = [semi] ∧ semi.kind = .semi) :
    Yields decls (kw :: name :: l :: (es ++ close :: us)) [] fun ds =>
      ∃ span spec, ds = [.types span [spec]] ∧
        spec.Bracketed name.text (es.map (·.kind)) (writtenText es) t := by
  have hend : Parses topLevelEnd rest [] () := by
    rcases hrest with rfl | ⟨last, rfl, hlast⟩
    · exact (Parses.eat_false (by simp)).bind fun b => ⟨b, rfl⟩
    · exact (Parses.eat_true hlast).bind .pure
  have hdecl : Yields (decl .kwType) (kw :: name :: l :: (es ++ close :: us)) rest fun o =>
      ∃ span spec, o = some (.types span [spec]) ∧
        spec.Bracketed name.text (es.map (·.kind)) (writtenText es) t := by
    refine (yields_typeDecl hl hes hclose ht hkw hname).bind ?_
    rintro _ ⟨span, spec, rfl, hspec⟩
    exact .pure ⟨span, spec, rfl, hspec⟩
  have hround : Yields (declRound []) (kw :: name :: l :: (es ++ close :: us)) [] fun r =>
      ∃ span spec, r = .inl [.types span [spec]] ∧
        spec.Bracketed name.text (es.map (·.kind)) (writtenText es) t := by
    refine yields_declRound (congrArg some hkw) (hdecl.bind ?_)
    rintro _ ⟨span, spec, rfl, hspec⟩
    exact hend.bindYields (.pure ⟨span, spec, rfl, hspec⟩)
  intro b
  obtain ⟨_, b', hok, span, spec, rfl, hspec⟩ := hround b
  have hrounds : rounds declRound ((kw :: name :: l :: (es ++ close :: us)).length + 1) []
      ⟨kw :: name :: l :: (es ++ close :: us), b⟩ = .ok ([.types span [spec]], ⟨[], b'⟩) :=
    (bind_of_ok hok).trans (bind_of_ok (declRound_nil _ rfl))
  exact ⟨_, b', hrounds, span, spec, rfl, hspec⟩

/-- A file with a package clause and the declaration. -/
theorem yields_file {package package' semi : Token} (hpackage : package.kind = .kwPackage)
    (hpackage' : package'.kind = .ident) (hsemi : semi.kind = .semi) (hkw : kw.kind = .kwType)
    (hname : name.kind = .ident) (hrest : rest = [] ∨ ∃ semi, rest = [semi] ∧ semi.kind = .semi) :
    Yields file (package :: package' :: semi :: kw :: name :: l :: (es ++ close :: us)) [] fun f =>
      f.package = package'.text ∧ f.imports = [] ∧ ∃ span spec, f.decls = [.types span [spec]] ∧
        spec.Bracketed name.text (es.map (·.kind)) (writtenText es) t := by
  have himports : Parses importDecls (kw :: name :: l :: (es ++ close :: us))
      (kw :: name :: l :: (es ++ close :: us)) [] := by
    refine .loop (.rounds_inr (Parses.isAt.bind ?_))
    rw [head?_cons, Option.map_some, hkw]
    exact .pure
  have hend : ∀ ts, Parses topLevelEnd (semi :: ts) ts () :=
    fun ts => (Parses.eat_true hsemi).bind .pure
  refine Yields.ahead.bind fun start _ => (Parses.expect hpackage).bindYields ?_
  refine (Parses.identifier hpackage').bindYields (Yields.behind.bind fun stop _ => ?_)
  refine (hend _).bindYields (himports.bindYields ?_)
  refine (yields_decls hl hes hclose ht hkw hname hrest).bind fun ds hds => ?_
  exact .pure ⟨rfl, rfl, hds⟩

end

end Parser

/-! ## Types at other offsets -/

theorem Parser.writtenText_eq_of_entry {ts ts' : List Token}
    (h : ts'.map Token.entry = ts.map Token.entry) : writtenText ts' = writtenText ts := by
  have hjoin : ∀ us : List Token, us.map (fun u => u.lead ++ u.text)
      = (us.map Token.entry).map fun e => String.ofList e.lead ++ String.ofList e.text := by
    intro us
    simp [Token.entry, Function.comp_def]
  have hhead : ∀ u : Token, u.text = String.ofList u.entry.text := fun u => by simp [Token.entry]
  cases ts with
  | nil =>
    rw [map_eq_nil_iff.1 h]
  | cons t ts =>
    obtain ⟨t', ts', rfl, ht, hts⟩ := map_eq_cons_iff.1 h
    rw [writtenText, writtenText, hhead t', hhead t, ht, hjoin, hjoin, hts]

theorem forall₂_entry_iff {ts ts' : List Token} :
    List.Forall₂ (fun t t' => t'.entry = t.entry) ts ts'
      ↔ ts'.map Token.entry = ts.map Token.entry := by
  rw [eq_comm, ← forall₂_eq_eq_eq, forall₂_map_left_iff, forall₂_map_right_iff]
  simp only [eq_comm]

/-- Tokens at other offsets. -/
def Pairing.sameEntries : Pairing where
  Alike t t' := t'.entry = t.entry
  more := []
  view := id
  kind_eq h := congrArg Entry.kind h
  text_eq h := String.toList_injective (congrArg Entry.text h)
  view_eq h _ := Parser.writtenText_eq_of_entry (forall₂_entry_iff.1 h)

namespace Parser

theorem blocks_sameEntries : Blocks .sameEntries :=
  ⟨fun _ h => (Option.not_mem_none _ h).elim, fun h => absurd rfl h⟩

/-- A type is read from tokens at other offsets, and as many tokens are left. -/
theorem exists_parsesType {ts ts' : List Token} {t : TypeExpr} {s : Cursor}
    (h : ts'.map Token.entry = ts.map Token.entry) (htype : type ⟨ts, 0⟩ = .ok (t, s)) :
    ∃ rest, ParsesType ts' rest t ∧ rest.map Token.entry = s.rest.map Token.entry := by
  obtain ⟨-, taken, htaken⟩ := sound_type (w := .taking _) .rBrack [] _ _ _ ⟨[], .nil⟩ htype
  obtain rfl : ts = taken ++ s.rest := htaken.rest
  have hlen : ts'.length = (taken ++ s.rest).length := by
    rw [← length_map Token.entry, h, length_map]
  have hbeside : ∀ b, Cursor.Beside .sameEntries ⟨taken ++ s.rest, 0⟩ ⟨ts', b⟩ := fun b =>
    ⟨⟨ts', (append_nil ts').symm, forall₂_entry_iff.2 h⟩, fun hmore => absurd rfl hmore⟩
  rw [map_append] at h
  obtain ⟨taken', rest, rfl, -, hrest⟩ := map_eq_append_iff.1 h
  refine ⟨rest, fun depth hdepth b => ?_, hrest⟩
  rcases tracks_typeWithin blocks_sameEntries (show (taken ++ s.rest).length + 1 ≤ depth by omega) _
      (Nat.le_refl _) _ _ (hbeside b) ⟨.inl rfl, Nat.lt_succ_self _⟩ with
    ⟨e, _, herror, -⟩ | ⟨t₁, t₂, s₁, s₂, h₁, h₂, hs, hview, -⟩
  · cases htype.symm.trans herror
  obtain ⟨rfl, rfl⟩ : t₁ = t ∧ s₁ = s := by
    simpa using (show Except.ok (t₁, s₁) = .ok (t, s) from h₁.symm.trans htype)
  obtain rfl : t₂ = t₁ := t₂.withLengths_id.symm.trans (hview.trans t₁.withLengths_id)
  -- the same number of tokens is left of the same tokens
  obtain ⟨us, hus, halike⟩ := hs.rest
  obtain rfl : s₂.rest = us := hus.trans (append_nil us)
  obtain ⟨-, taken₂, htaken₂⟩ :=
    sound_typeWithin (w := .taking _) _ .rBrack [] _ _ _ ⟨[], .nil⟩ h₂
  have hleft : rest.length = s₂.rest.length := by
    rw [← halike.length_eq, ← length_map Token.entry, hrest, length_map]
  obtain ⟨-, rfl⟩ := append_inj' htaken₂.rest hleft
  exact ⟨s₂.behind, h₂⟩

end Parser

/-! ## The text of a declaration -/

/-- The tokens of a package clause and the start of a declaration. -/
def headingTokens : List Token :=
  [⟨.kwPackage, "", "package", 0⟩, ⟨.ident, " ", "p", 8⟩, Token.inserted [] 9,
    ⟨.kwType, "\n\n", "type", 11⟩, ⟨.ident, " ", "A", 16⟩]

theorem framed_heading : Framed "package p\n\ntype A" headingTokens :=
  ⟨⟨[.inserted [] 17], by decide +kernel, by decide⟩, ⟨_, rfl, rfl⟩,
    ⟨_, rfl, by decide, by decide⟩⟩

theorem exists_tokens_bracketed {length elem : String} {ts us vs : List Token}
    (hlength : Framed length ts) (helem : Framed elem us) (hvs : tokenize elem.toList = .ok vs) :
    ∃ hs l es close vs', tokenize ("package p\n\ntype A [" ++ length ++ "]" ++ elem ++ "\n").toList
        = .ok (hs ++ l :: (es ++ close :: vs')) ∧
      hs.map Token.entry = headingTokens.map Token.entry ∧ l.kind = .lBrack ∧
      es.map Token.entry = ts.map Token.entry ∧ close.kind = .rBrack ∧
      vs'.map Token.entry = vs.map Token.entry := by
  obtain ⟨ps₁, open₁, -, hcut₁, htokens₁⟩ := framed_heading.exists_pieces
  obtain ⟨ps₂, open₂, -, hcut₂, htokens₂⟩ := hlength.exists_pieces
  obtain ⟨ps₃, open₃, htokenize, hcut₃, htokens₃⟩ := helem.exists_pieces
  have hbreak : Cut false ['\n'] [⟨.newline, ['\n']⟩] :=
    .cons (v := []) (z := []) (scan_break rfl []) (by simp) .nil
  have helem' := hcut₃ ['\n'] _ rfl hbreak
  have hclose : Cut false (']' :: (elem.toList ++ ['\n']))
      (⟨.token .rBrack, [']']⟩ :: (ps₃ ++ [⟨.newline, ['\n']⟩])) :=
    .cons (v := []) rfl (by simp) helem'
  have hlength' := hcut₂ _ _ rfl hclose
  have hopen : Cut false (' ' :: '[' :: (length.toList ++ ']' :: (elem.toList ++ ['\n'])))
      (⟨.blank, [' ']⟩ :: ⟨.token .lBrack, ['[']⟩
        :: (ps₂ ++ ⟨.token .rBrack, [']']⟩ :: (ps₃ ++ [⟨.newline, ['\n']⟩]))) :=
    .cons (v := []) rfl (by simp) (.cons (v := []) rfl (by simp) hlength')
  have hall := tokenize_eq_ok_iff.2 ⟨_, (hcut₁ _ _ rfl hopen).mono true, rfl⟩
  choose hs hhs htokens₁ using htokens₁
  choose es hes htokens₂ using htokens₂
  choose us' hus' htokens₃ using htokens₃
  have hblank : ¬(open₁ && hasBreak [' ']) = true := by cases open₁ <;> decide
  rw [htokens₁, tokensOf_trivia (by simp), if_neg hblank, tokensOf_token, htokens₂, tokensOf_token,
    htokens₃] at hall
  have htext : ("package p\n\ntype A [" ++ length ++ "]" ++ elem ++ "\n").toList
      = "package p\n\ntype A".toList
        ++ ' ' :: '[' :: (length.toList ++ ']' :: (elem.toList ++ ['\n'])) := by
    simp [String.toList_append]
  refine ⟨_, _, _, _, _, (congrArg tokenize htext).trans hall, hhs _ _, rfl, hes _ _, rfl, ?_⟩
  rw [Except.ok.inj (hvs.symm.trans htokenize), map_append, map_append, hus',
    map_entry_tokensOf, map_entry_tokensOf]
  cases open₃ <;> rfl

/-- Behind a type that is a whole text at most the end of its statement is left. -/
theorem Parser.exists_type_of_parse {text : String} {t : TypeExpr}
    (h : TypeExpr.parse text = .ok t) :
    ∃ ts s, tokenize text.toList = .ok ts ∧ type ⟨ts, 0⟩ = .ok (t, s) ∧
      (s.rest = [] ∨ ∃ semi, s.rest = [semi] ∧ semi.kind = .semi) := by
  rw [parse_eq] at h
  obtain ⟨ts, s', htokens, hwhole⟩ := run_ok h
  obtain ⟨u, s₁, htype, h₁⟩ := bind_ok hwhole
  obtain ⟨_, s₂, hsemi, h₂⟩ := bind_ok h₁
  obtain ⟨done, s₃, hdone, h₃⟩ := bind_ok h₂
  cases hdone
  dsimp only at h₃
  split at h₃
  · obtain ⟨_, _, hfail, -⟩ := bind_ok h₃
    exact absurd hfail failHere_ok
  · rename_i hend
    obtain ⟨rfl, -⟩ := pure_ok h₃
    replace hend : s₂.rest = [] := by simpa using hend
    refine ⟨ts, s₁, htokens, htype, ?_⟩
    rcases eat_ok hsemi with ⟨-, semi, hrest, hkind⟩ | ⟨-, rfl, -⟩
    · exact .inr ⟨semi, by rw [hrest, hend], hkind⟩
    · exact .inl hend

/-- In a declaration a bracketed length expression before a type is the length of an array, but for
a union with a star.  The text of the length and the tree of the type are kept. -/
theorem SourceFile.parse_bracketed {length elem : String} {ts us : List Token} {t : TypeExpr}
    (hlength : Framed length ts) (hexpr : LengthExpr (ts.map (·.kind))) (helem : Framed elem us)
    (ht : TypeExpr.parse elem = .ok t) :
    ∃ f span spec,
      SourceFile.parse ("package p\n\ntype A [" ++ length ++ "]" ++ elem ++ "\n") = .ok f ∧
      f.package = "p" ∧ f.imports = [] ∧ f.decls = [.types span [spec]] ∧
      spec.Bracketed "A" (ts.map (·.kind)) length t := by
  obtain ⟨vs, s, hvs, htype, hrest⟩ := Parser.exists_type_of_parse ht
  obtain ⟨hs, l, es, close, vs', htokens, hhs, hl, hes, hclose, hvs'⟩ :=
    exists_tokens_bracketed hlength helem hvs
  obtain ⟨rest, hparses, hleft⟩ := Parser.exists_parsesType hvs' htype
  have hkinds : es.map (·.kind) = ts.map (·.kind) := by
    have h := congrArg (List.map Entry.kind) hes
    rwa [map_map, map_map] at h
  have hwritten : Parser.writtenText es = length :=
    (Parser.writtenText_eq_of_entry hes).trans hlength.writtenText_eq
  have hrest' : rest = [] ∨ ∃ semi, rest = [semi] ∧ semi.kind = .semi := by
    rcases hrest with hnil | ⟨semi, hsemi, hkind⟩
    · rw [hnil] at hleft
      exact .inl (map_eq_nil_iff.1 hleft)
    · rw [hsemi] at hleft
      obtain ⟨semi', hsemi', hentry⟩ := map_eq_singleton_iff.1 hleft
      exact .inr ⟨semi', hsemi', (congrArg Entry.kind hentry).trans hkind⟩
  obtain ⟨package, _, rfl, hpackage, hhs⟩ := map_eq_cons_iff.1 hhs
  obtain ⟨package', _, rfl, hpackage', hhs⟩ := map_eq_cons_iff.1 hhs
  obtain ⟨semi, _, rfl, hsemi, hhs⟩ := map_eq_cons_iff.1 hhs
  obtain ⟨kw, _, rfl, hkw, hhs⟩ := map_eq_cons_iff.1 hhs
  obtain ⟨name, rfl, hname⟩ := map_eq_singleton_iff.1 hhs
  obtain ⟨f, b, hfile, hf, himports, span, spec, hdecls, hspec⟩ := Parser.yields_file hl
    (hkinds ▸ hexpr) hclose hparses (congrArg Entry.kind hpackage) (congrArg Entry.kind hpackage')
    (congrArg Entry.kind hsemi) (congrArg Entry.kind hkw) (congrArg Entry.kind hname) hrest' 0
  rw [hkinds, hwritten, String.toList_injective (congrArg Entry.text hname)] at hspec
  refine ⟨f, span, spec, ?_, ?_, himports, hdecls, hspec⟩
  · rw [SourceFile.parse, Parser.run_eq htokens]
    exact congrArg (fun r => (Except.map Prod.fst r).mapError _) hfile
  · rw [hf]
    exact String.toList_injective (congrArg Entry.text hpackage')

/-- The tokens of a length whose first factors could be a type parameter. -/
def productTokens : List Token :=
  [⟨.ident, "", "N", 0⟩, ⟨.star, "", "*", 1⟩, ⟨.ident, "", "M", 2⟩, ⟨.pipe, "", "|", 3⟩,
    ⟨.ident, "", "f", 4⟩, ⟨.lParen, "", "(", 5⟩, ⟨.ident, "", "q", 6⟩, ⟨.dot, "", ".", 7⟩,
    ⟨.ident, "", "K", 8⟩, ⟨.comma, "", ",", 9⟩, ⟨.intLit, " ", "2", 11⟩, ⟨.rParen, "", ")", 12⟩]

/-- The tokens of a type. -/
def elementTokens : List Token :=
  [⟨.kwMap, "", "map", 0⟩, ⟨.lBrack, "", "[", 3⟩, ⟨.ident, "", "K", 4⟩, ⟨.rBrack, "", "]", 5⟩,
    ⟨.star, "", "*", 6⟩, ⟨.ident, "", "T", 7⟩]

/-- A product and a call are a length. -/
theorem SourceFile.parse_bracketed_call :
    Framed "N*M|f(q.K, 2)" productTokens ∧ LengthExpr (productTokens.map (·.kind)) ∧
      Framed "map[K]*T" elementTokens ∧
      TypeExpr.parse "map[K]*T" = .ok (.map (.name "K") (.pointer (.name "T"))) ∧
      ∃ f span spec, SourceFile.parse "package p\n\ntype A [N*M|f(q.K, 2)]map[K]*T\n" = .ok f ∧
        f.package = "p" ∧ f.imports = [] ∧ f.decls = [.types span [spec]] ∧ spec.name = "A" ∧
        spec.typeParams = [] ∧
        spec.type = .array "N*M|f(q.K, 2)" (.map (.name "K") (.pointer (.name "T"))) := by
  have hlength : Framed "N*M|f(q.K, 2)" productTokens :=
    ⟨⟨[Token.inserted [] 13], by decide +kernel, by decide⟩, ⟨_, rfl, rfl⟩,
      ⟨_, rfl, by decide, by decide⟩⟩
  have helem : Framed "map[K]*T" elementTokens :=
    ⟨⟨[Token.inserted [] 8], by decide +kernel, by decide⟩, ⟨_, rfl, rfl⟩,
      ⟨_, rfl, by decide, by decide⟩⟩
  have hargs : ∀ arg ∈ [[TokenKind.ident, .dot, .ident], [.intLit]], LengthExpr arg :=
    forall_mem_cons.2 ⟨.qualified, forall_mem_singleton.2 .literal⟩
  have hcall : LengthExpr [.ident, .lParen, .ident, .dot, .ident, .comma, .intLit, .rParen] :=
    @LengthExpr.call [.ident] _ [] .name hargs (.inl rfl)
  have hproduct : LengthExpr [.ident, .star, .ident] :=
    @LengthExpr.binary .star [.ident] [.ident] rfl .name .name
  have hexpr : LengthExpr (productTokens.map (·.kind)) :=
    @LengthExpr.binary .pipe _ _ rfl hproduct hcall
  have ht : TypeExpr.parse "map[K]*T" = .ok (.map (.name "K") (.pointer (.name "T"))) := by
    decide +kernel
  have hunion : ¬ StarUnion (productTokens.map (·.kind)) :=
    fun h => absurd (h.kind_mem .comma (by decide)) (by decide)
  obtain ⟨f, span, spec, hparse, hpackage, himports, hdecls, hspec⟩ :=
    parse_bracketed hlength hexpr helem ht
  obtain ⟨hparams, htype⟩ := hspec.array hunion
  exact ⟨hlength, hexpr, helem, ht, f, span, spec, hparse, hpackage, himports, hdecls, hspec.name,
    hparams, htype⟩

/-- The tokens of a product and a sum. -/
def sumTokens : List Token :=
  [⟨.ident, "", "N", 0⟩, ⟨.star, "", "*", 1⟩, ⟨.ident, "", "M", 2⟩, ⟨.pipe, "", "|", 3⟩,
    ⟨.ident, "", "K", 4⟩]

/-- A product of two names with a bar and a third name behind it is a length expression, and is read
as a type parameter with a constraint. -/
theorem SourceFile.parse_ne_array_starUnion :
    Framed "N*M|K" sumTokens ∧ LengthExpr (sumTokens.map (·.kind)) ∧
      Framed "byte" [⟨.ident, "", "byte", 0⟩] ∧ TypeExpr.parse "byte" = .ok (.name "byte") ∧
      ∃ f span spec, SourceFile.parse "package p\n\ntype A [N*M|K]byte\n" = .ok f ∧
        f.decls = [.types span [spec]] ∧ spec.type = .name "byte" ∧
        spec.typeParams = [⟨["N"], .union [⟨false, .pointer (.name "M")⟩, ⟨false, .name "K"⟩]⟩] := by
  refine ⟨⟨⟨[Token.inserted [] 5], by decide +kernel, by decide⟩, ⟨_, rfl, rfl⟩,
    ⟨_, rfl, by decide, by decide⟩⟩, ?_, ⟨⟨[Token.inserted [] 4], by decide +kernel, by decide⟩,
    ⟨_, rfl, rfl⟩, ⟨_, rfl, by decide, by decide⟩⟩, by decide +kernel, ?_⟩
  · have hproduct : LengthExpr [.ident, .star, .ident] :=
      @LengthExpr.binary .star [.ident] [.ident] rfl .name .name
    exact @LengthExpr.binary .pipe _ [.ident] rfl hproduct .name
  · have hparse : SourceFile.parse "package p\n\ntype A [N*M|K]byte\n" = .ok ⟨"p", ⟨0, 9⟩, [],
        [.types ⟨11, 29⟩ [⟨"A", ⟨16, 29⟩,
          [⟨["N"], .union [⟨false, .pointer (.name "M")⟩, ⟨false, .name "K"⟩]⟩], false,
          .name "byte"⟩]]⟩ := by
      decide +kernel
    exact ⟨_, _, _, hparse, rfl, rfl, rfl⟩

end Stubwright
