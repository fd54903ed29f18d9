import Stubwright.Proofs.RoundTrip
import Stubwright.Proofs.Stub.Spelling

/-!
# Stubs are read as methods

Each stub is read as one method: with an unnamed pointer receiver that has the names of the type
parameters as arguments, with the name and the signature of the stub, and with a body.

* `blocks_of_stubs`: stubs do not close an interface that is open before them.
-/

namespace Stubwright

open List

variable {depth : Nat} {spec : TypeSpec} {ts rest : List Token} {m : Method}

/-! ## Readings with a result of some kind -/

/-- The reader succeeds on `ts` and leaves `rest`, and what it reads is in `Q`. -/
def Yields {α : Type} (p : Parser α) (ts rest : List Token) (Q : α → Prop) : Prop :=
  ∀ behind, ∃ a behind', p ⟨ts, behind⟩ = .ok (a, ⟨rest, behind'⟩) ∧ Q a

section

variable {α β : Type} {p : Parser α} {f : α → Parser β} {ts us rest : List Token} {a : α}
  {Q : α → Prop} {R : β → Prop}

theorem Parses.yields (h : Parses p ts rest a) (ha : Q a) : Yields p ts rest Q := by
  intro b
  obtain ⟨b', hp⟩ := h b
  exact ⟨a, b', hp, ha⟩

theorem Yields.pure (ha : Q a) : Yields (pure a) ts ts Q :=
  Parses.pure.yields ha

theorem Yields.bind (hp : Yields p ts us Q) (hf : ∀ a, Q a → Yields (f a) us rest R) :
    Yields (p >>= f) ts rest R := by
  intro b
  obtain ⟨a, b₁, hp, ha⟩ := hp b
  obtain ⟨c, b₂, hf, hc⟩ := hf a ha b₁
  exact ⟨c, b₂, (Parser.bind_of_ok hp).trans hf, hc⟩

/-- A reader with a known result before one with a result of some kind. -/
theorem Parses.bindYields (hp : Parses p ts us a) (hf : Yields (f a) us rest R) :
    Yields (p >>= f) ts rest R :=
  (hp.yields rfl).bind fun _ h => h ▸ hf

theorem Yields.ahead : Yields Parser.ahead ts ts fun _ => True := by
  intro b
  exact ⟨_, b, rfl, trivial⟩

theorem Yields.behind : Yields Parser.behind ts ts fun _ => True := by
  intro b
  exact ⟨_, b, rfl, trivial⟩

end

/-! ## Receivers -/

def TypeSpec.stubReceiver (spec : TypeSpec) : Receiver where
  name := none
  pointer := true
  base := spec.name
  typeArgs := spec.typeParamNames

namespace Parses

open Stubwright.Parser

variable {ts us rest : List Token}

theorem type {t : TypeExpr} (h : Parses (typeWithin (ts.length + 1)) ts rest t) :
    Parses Parser.type ts rest t := by
  intro b
  have hget : (get : Parser Cursor) ⟨ts, b⟩ = .ok (⟨ts, b⟩, ⟨ts, b⟩) := rfl
  obtain ⟨b', htype⟩ := h b
  exact ⟨b', (bind_of_ok hget).trans htype⟩

theorem typeWithin_name {tok : Token} (htok : tok.kind = .ident)
    (hdot : us.head?.map (·.kind) ≠ some .dot) (hbrack : us.head?.map (·.kind) ≠ some .lBrack)
    (depth : Nat) : Parses (typeWithin (depth + 1)) (tok :: us) us (.name tok.text) := by
  have hspelled : (TypeExpr.name tok.text).Spelled [tok] := by
    rw [TypeExpr.Spelled]
    exact ⟨tok, rfl, htok, rfl⟩
  have hname : Parses (Parser.typeName (typeWithin depth)) ([tok] ++ us) us (.name tok.text) :=
    typeName rfl hspelled hdot (typeArgs_none hbrack)
  exact typeStep_ident (congrArg some htok) hname

/-- Names with commas between them are type arguments. -/
theorem items_names {names : List String} {close : Token}
    (h : Form.separated .comma ((names.map TypeExpr.name).map fun a => a.Spelled) ts)
    (hlen : ts.length ≤ depth) (hclose : close.kind = .rBrack) (rest : List Token) :
    Items .rBrack (thenComma (typeWithin depth)) (ts ++ close :: rest) (close :: rest)
      (names.map .name) := by
  have hcons : ∀ a ∈ names.map .name, ∀ (ts us rest : List Token) (args args' : List TypeExpr),
      a.Spelled ts → ts.length ≤ depth →
      Items.Behind .rBrack (thenComma (typeWithin depth)) us rest args' → args = args' →
      ∃ as, Items .rBrack (thenComma (typeWithin depth)) (ts ++ us) rest as ∧ a :: args = as := by
    rintro a ha ts us rest args _ hts hlen hbehind rfl
    obtain ⟨name, -, rfl⟩ := mem_map.1 ha
    rw [TypeExpr.Spelled] at hts
    obtain ⟨tok, rfl, htok, rfl⟩ := hts
    obtain ⟨d, rfl⟩ := Nat.exists_eq_add_of_le' hlen
    have hends : EndsType us := hbehind.endsType rfl
    refine ⟨_, .cons_of_behind [tok] (by decide) ?_ ?_ hbehind, rfl⟩
    · rw [singleton_append, head?_cons, Option.map_some, htok]
      decide
    · exact typeWithin_name htok (hends.head_ne rfl) (hends.head_ne rfl) d
  obtain ⟨args, hitems, rfl⟩ := Items.of_separated rfl hcons h hlen hclose rest
  exact hitems

end Parses

namespace Parser

theorem parses_receiverBase (h : spec.receiverBase.Spelled ts) (hdepth : ts.length ≤ depth)
    (hends : EndsType rest) :
    Parses (typeWithin (depth + 1)) (ts ++ rest) rest spec.receiverBase := by
  unfold TypeSpec.receiverBase at h ⊢
  cases hparams : spec.typeParamNames with
  | nil =>
    rw [hparams] at h
    dsimp only at h
    rw [TypeExpr.Spelled] at h
    obtain ⟨tok, rfl, htok, htext⟩ := h
    rw [← htext]
    exact .typeWithin_name htok (hends.head_ne rfl) (hends.head_ne rfl) depth
  | cons param params =>
    rw [hparams] at h
    dsimp only at h ⊢
    rw [TypeExpr.Spelled] at h
    obtain ⟨bs, _, hbs, hwithin, rfl⟩ := h
    obtain ⟨l, vs, r, rfl, hl, hr, hvs⟩ := Form.exists_of_within hwithin
    have hinner : vs.length ≤ depth := by
      simp only [length_append, length_cons] at hdepth
      omega
    have hitems := Parses.items_names hvs hinner hr rest
    have hlist : bs ++ l :: (vs ++ [r]) ++ rest = bs ++ l :: (vs ++ r :: rest) := by simp
    rw [hlist]
    refine .typeStep_ident ?_ (.typeName rfl hbs (by simp [hl])
      (.typeArgs_some hl hitems hr rfl (by simp)))
    rw [TypeExpr.Spelled] at hbs
    obtain ⟨tok, rfl, htok, -⟩ := hbs
    exact congrArg some htok

theorem parses_receiverType (h : spec.receiverType.Spelled ts) (hends : EndsType rest) :
    Parses type (ts ++ rest) rest spec.receiverType := by
  rw [TypeSpec.receiverType, TypeExpr.Spelled] at h
  obtain ⟨star, es, rfl, hstar, hes⟩ := Form.exists_of_one_seq h
  have helem : Parses (typeWithin ((es ++ rest).length + 1)) (es ++ rest) rest spec.receiverBase :=
    parses_receiverBase hes (by simp) hends
  exact .type (.peek_next hstar rfl (helem.bind .pure))

theorem receiver?_receiverType (spec : TypeSpec) :
    receiver? [⟨[], spec.receiverType⟩] = some spec.stubReceiver := by
  have hargs : ∀ names : List String, (names.map TypeExpr.name).mapM receiverArg? = some names := by
    intro names
    induction names with
    | nil => rfl
    | cons name names ih =>
      rw [map_cons, mapM_cons, ih]
      rfl
  have hbase : receiverBase? spec.receiverBase.unparen = some (spec.name, spec.typeParamNames) := by
    unfold TypeSpec.receiverBase
    cases spec.typeParamNames with
    | nil => rfl
    | cons param params => exact congrArg (Option.map fun names => (spec.name, names)) (hargs _)
  change (receiverBase? spec.receiverBase.unparen).map _ = _
  rw [hbase]
  rfl

theorem parses_receiver (h : Form.within .lParen .rParen spec.receiverType.Spelled ts)
    (rest : List Token) : Parses receiver (ts ++ rest) rest spec.stubReceiver := by
  obtain ⟨l, us, r, rfl, hl, hr, hus⟩ := Form.exists_of_within h
  have hlist : l :: (us ++ [r]) ++ rest = l :: (us ++ r :: rest) := by simp
  have hends : EndsType (r :: rest) := .cons (by rw [hr]; rfl)
  have hstar : (us ++ r :: rest).head?.map (·.kind) = some .star := by
    rw [TypeSpec.receiverType, TypeExpr.Spelled] at hus
    obtain ⟨star, es, rfl, hstar, -⟩ := Form.exists_of_one_seq hus
    exact congrArg some hstar
  have hentry : Parses (paramEntry type) (us ++ r :: rest) (r :: rest) (.unnamed spec.receiverType) := by
    refine .paramEntry_other (by rw [hstar]; decide) ?_
    exact (Parses.eat_false (by rw [hstar]; decide)).bind (parses_receiverType hus hends)
  have hitems : Items .rParen (thenComma (paramEntry type)) (us ++ r :: rest) (r :: rest)
      [.unnamed spec.receiverType] :=
    .cons_of_behind us (by decide) (by rw [hstar]; decide) hentry (.inl ⟨congrArg some hr, rfl, rfl⟩)
  have hparams : Parses (params type) (l :: (us ++ r :: rest)) rest [⟨[], spec.receiverType⟩] :=
    (Parses.expect hl).bind (hitems.parses.bind ((Parses.expect hr).bind .pure))
  rw [hlist]
  intro b
  obtain ⟨b', hps⟩ := hparams b
  refine ⟨b', (bind_of_ok (show ahead _ = .ok (_, _) from rfl)).trans ((bind_of_ok hps).trans ?_)⟩
  rw [receiver?_receiverType]
  rfl

/-! ## Signatures -/

def sameList : Pairing where
  Alike := Eq
  more := []
  view := id
  kind_eq h := h ▸ rfl
  text_eq h := h ▸ rfl
  view_eq h _ := by
    rw [forall₂_eq_eq_eq] at h
    rw [h]

theorem blocks_sameList : Blocks sameList :=
  ⟨fun _ h => (Option.not_mem_none _ h).elim, fun h => absurd rfl h⟩

/-- A deep reader of nested types and the one that is deep enough for any tokens are alike. -/
theorem tracks_type_typeWithin (n : Nat) :
    Tracks sameList n (TypeExpr.withLengths id) type (typeWithin n) := by
  intro i hi s s' hs hnear
  have hdepth := (tracks_typeWithin blocks_sameList (Nat.le_trans (Nat.succ_le_of_lt hnear.2) hi)
    (s.rest.length + 1) (Nat.le_refl _)).imp fun t t' s₁ h =>
      (⟨h.1, h.2.mono (Nat.le_sub_of_add_le hnear.2)⟩ :
        t'.withLengths id = t.withLengths id ∧ s₁.Near sameList (i - 1))
  exact hdepth s s' hs ⟨hnear.1, Nat.lt_succ_self _⟩

end Parser

theorem TypeExpr.withLengths_id (t : TypeExpr) : t.withLengths id = t :=
  withLengths_eq_self (fun _ _ => rfl) t (hasTexts_of_forall (fun _ => trivial) (fun _ => trivial) t)

theorem Signature.withLengths_id (sig : Signature) : sig.withLengths id = sig := by
  have hfunc := (TypeExpr.func sig).withLengths_id
  rw [TypeExpr.withLengths] at hfunc
  exact TypeExpr.func.inj hfunc

namespace Parser

theorem parses_signature_type {sig : Signature} {n : Nat}
    (h : Parses (signature (typeWithin n)) ts rest sig) (hn : ts.length < n) :
    Parses (signature type) ts rest sig := by
  intro b
  obtain ⟨b', hsig⟩ := h b
  have hbeside : Cursor.Beside sameList ⟨ts, b⟩ ⟨ts, b⟩ :=
    ⟨⟨ts, (append_nil ts).symm, forall₂_same.2 fun _ _ => rfl⟩, fun hmore => absurd rfl hmore⟩
  rcases tracks_signature (tracks_type_typeWithin n) n (Nat.le_refl n) _ _ hbeside ⟨.inl rfl, hn⟩ with
    ⟨_, e, -, herror⟩ | ⟨sig₁, sig₂, s₁, s₂, h₁, h₂, hs, hview, -⟩
  · cases hsig.symm.trans herror
  · obtain ⟨rfl, rfl⟩ : sig = sig₂ ∧ ⟨rest, b'⟩ = s₂ := by simpa using hsig.symm.trans h₂
    obtain rfl : sig = sig₁ :=
      (sig.withLengths_id).symm.trans (hview.trans sig₁.withLengths_id)
    obtain ⟨ts', hrest, halike⟩ := hs.rest
    have hsame : s₁.rest = ts' := forall₂_eq_eq_eq ▸ halike
    obtain rfl : rest = s₁.rest := (hrest.trans (append_nil ts')).trans hsame.symm
    exact ⟨s₁.behind, h₁⟩

/-- A signature before a body is read back. -/
theorem exists_parses_signature {sig : Signature} (hform : sig.Formed identified)
    (hregular : sig.isRegular = true) (hts : sig.Spelled ts) (hends : EndsType rest) :
    ∃ sig', Parses (signature type) (ts ++ rest) rest sig' ∧ sig'.bare = sig.bare := by
  have hlen : ts.length ≤ (ts ++ rest).length + 1 := by
    rw [length_append]
    omega
  obtain ⟨sig', hparses, hbare⟩ := Signature.parses
    ⟨fun p _ => p.type.readsBackWithin, fun p _ => p.type.readsBackWithin⟩ hform hregular hts hlen hends
  exact ⟨sig', parses_signature_type hparses (Nat.lt_succ_self _), hbare⟩

/-! ## Methods -/

theorem yields_stubBody (h : Form.stubBody ts) (rest : List Token) :
    Yields body (ts ++ rest) rest fun span => span.isSome = true := by
  obtain ⟨l, _, rfl, hl, hrest⟩ := Form.exists_of_one_seq h
  obtain ⟨panic, _, rfl, hpanic, -, hrest⟩ := Form.exists_of_word_seq hrest
  obtain ⟨open_, _, rfl, hopen, hrest⟩ := Form.exists_of_one_seq hrest
  obtain ⟨text, _, rfl, htext, hrest⟩ := Form.exists_of_one_seq hrest
  obtain ⟨close, _, rfl, hclose, hrest⟩ := Form.exists_of_one_seq hrest
  obtain ⟨semi, _, rfl, hsemi, r, rfl, hr⟩ := Form.exists_of_one_seq hrest
  have hskip : ∀ start b, skipBody start 1 b ([panic, open_, text, close, semi, r] ++ rest)
      = .ok ⟨rest, r.stop⟩ := by
    intro start b
    simp [skipBody, hpanic, hopen, htext, hclose, hsemi, hr]
  rw [cons_append]
  refine Parses.isAt.bindYields ?_
  rw [if_neg (by simp [hl])]
  refine (Parses.expect hl).bindYields fun b => ?_
  refine ⟨some (.between l.start r.stop), r.stop, ?_, rfl⟩
  have hget : ∀ s : Cursor, (get : Parser Cursor) s = .ok (s, s) := fun _ => rfl
  refine (bind_of_ok (hget _)).trans ?_
  rw [hskip]
  rfl

end Parser

/-- The method that a stub of a type stands for. -/
structure FuncDecl.IsStub (spec : TypeSpec) (m : Method) (d : FuncDecl) : Prop where
  recv : d.recv = some spec.stubReceiver
  name : d.name = m.name
  typeParams : d.typeParams = []
  sig : d.sig.bare = m.sig.bare
  body : d.body.isSome = true

namespace Parser

variable {spec : TypeSpec}

/-- The tokens of a stub are read as a method. -/
theorem yields_stub (hform : m.Formed) (hregular : m.sig.isRegular = true) (h : Form.stub spec m ts)
    (rest : List Token) :
    Yields funcDecl (ts ++ rest) rest fun d => ∃ f, d = .func f ∧ f.IsStub spec m := by
  obtain ⟨func, _, rfl, hfunc, rs, _, hrs, hrest, rfl⟩ := Form.exists_of_one_seq h
  obtain ⟨name, _, rfl, hname, htext, ss, bs, hss, hbs, rfl⟩ := Form.exists_of_word_seq hrest
  have hlist : func :: (rs ++ name :: (ss ++ bs)) ++ rest
      = func :: (rs ++ name :: (ss ++ (bs ++ rest))) := by
    simp
  have hopen : (rs ++ name :: (ss ++ (bs ++ rest))).head?.map (·.kind) = some .lParen := by
    obtain ⟨l, us, r, rfl, hl, -⟩ := Form.exists_of_within hrs
    exact congrArg some hl
  have hsig : (ss ++ (bs ++ rest)).head?.map (·.kind) = some .lParen := by
    obtain ⟨l, us, rfl, hl⟩ := m.sig.startsWith_lParen ss hss
    exact congrArg some hl
  have hends : EndsType (bs ++ rest) := by
    obtain ⟨l, us, rfl, hl, -⟩ := Form.exists_of_one_seq hbs
    exact .cons (by rw [hl]; rfl)
  obtain ⟨sig, hparses, hbare⟩ := exists_parses_signature hform.sig hregular hss hends
  rw [hlist]
  refine Yields.ahead.bind fun start _ => (Parses.expect hfunc).bindYields ?_
  refine Parses.isAt.bindYields ?_
  rw [hopen, if_pos (by decide)]
  refine (parses_receiver hrs _).bindYields (Parses.pure.bindYields ?_)
  refine (Parses.identifier hname).bindYields (Parses.isAt.bindYields ?_)
  rw [hsig, if_neg (by decide)]
  refine Parses.pure.bindYields (hparses.bindYields ((yields_stubBody hbs rest).bind fun body hbody => ?_))
  refine Yields.behind.bind fun stop _ => .pure ⟨_, rfl, rfl, htext, rfl, hbare, hbody⟩

theorem yields_declRound {ts rest : List Token} {ds : List Decl} {kind : TokenKind}
    {Q : List Decl ⊕ List Decl → Prop} (hkind : ts.head?.map (·.kind) = some kind)
    (h : Yields (do
      let d ← decl kind
      topLevelEnd
      return .inl (ds ++ d.toList)) ts rest Q) : Yields (declRound ds) ts rest Q := by
  intro b
  have hround := declRound_cons ds (show Cursor.kind? ⟨ts, b⟩ = some kind from hkind)
  rw [hround]
  exact h b

/-- The tokens of stubs are read as methods, in order. -/
theorem yields_stubs {stubs : List Method} (hstubs : ∀ m ∈ stubs, m.Formed ∧ m.sig.isRegular = true)
    (h : Form.ended (stubs.map (Form.stub spec)) ts) {k : Nat} (hk : ts.length < k)
    (ds : List Decl) :
    Yields (rounds declRound k ds) ts [] fun out =>
      ∃ methods, out = ds ++ methods.map .func ∧ List.Forall₂ (FuncDecl.IsStub spec) stubs methods := by
  induction stubs generalizing ts k ds with
  | nil =>
    obtain rfl : ts = [] := h
    obtain ⟨k, rfl⟩ := Nat.exists_eq_add_of_lt hk
    intro b
    refine ⟨ds, b, bind_of_ok (declRound_nil ds rfl), [], (append_nil ds).symm, .nil⟩
  | cons m stubs ih =>
    obtain ⟨⟨hform, hregular⟩, hstubs⟩ := forall_mem_cons.1 hstubs
    obtain ⟨as, _, has, hrest, rfl⟩ := h
    obtain ⟨semi, bs, rfl, hsemi, hbs⟩ := Form.exists_of_one_seq hrest
    rw [length_append, length_cons] at hk
    obtain ⟨k, rfl⟩ := Nat.exists_eq_add_of_lt (Nat.zero_lt_of_lt hk)
    have hkind : (as ++ semi :: bs).head?.map (·.kind) = some .kwFunc := by
      obtain ⟨func, us, rfl, hfunc, -⟩ := Form.exists_of_one_seq has
      exact congrArg some hfunc
    have hdecl : Yields (decl .kwFunc) (as ++ semi :: bs) (semi :: bs) fun o =>
        ∃ f, o = some (.func f) ∧ f.IsStub spec m := by
      refine (yields_stub hform hregular has (semi :: bs)).bind ?_
      rintro _ ⟨f, rfl, hf⟩
      exact .pure ⟨f, rfl, hf⟩
    have hround : Yields (declRound ds) (as ++ semi :: bs) bs fun r =>
        ∃ f, r = .inl (ds ++ [.func f]) ∧ f.IsStub spec m := by
      refine yields_declRound hkind (hdecl.bind ?_)
      rintro _ ⟨f, rfl, hf⟩
      have hend : Parses topLevelEnd (semi :: bs) bs () := (Parses.eat_true hsemi).bind .pure
      exact hend.bindYields (.pure ⟨f, rfl, hf⟩)
    refine hround.bind ?_
    rintro _ ⟨f, rfl, hf⟩ b
    obtain ⟨_, b', hrounds, methods, rfl, hmethods⟩ :=
      ih hstubs hbs (k := 0 + k) (by omega) (ds ++ [.func f]) b
    exact ⟨_, b', hrounds, f :: methods, by simp, .cons hf hmethods⟩

end Parser

/-! ## Stubs behind an open interface -/

theorem nests_append {pending kinds : List TokenKind} (h : ∀ k ∈ kinds, ∀ σ, pendingAfter σ k = some σ)
    (rest : List TokenKind) : nests pending (kinds ++ rest) = nests pending rest := by
  induction kinds with
  | nil => rfl
  | cons k kinds ih =>
    obtain ⟨hk, hkinds⟩ := forall_mem_cons.1 h
    rw [cons_append, nests, hk, Option.any_some, ih hkinds]

theorem Form.kind_of_words {names : List String} (h : Form.words names ts) :
    ∀ t ∈ ts, t.kind = .ident ∨ t.kind = .comma := by
  induction names generalizing ts with
  | nil =>
    obtain rfl : ts = [] := h
    simp
  | cons name names ih =>
    obtain ⟨_, bs, ⟨tok, rfl, htok, -⟩, rfl, ⟨-, rfl⟩ | ⟨-, comma, cs, rfl, hcomma, hcs⟩⟩ :=
      Form.exists_of_separated_cons h
    · simp [htok]
    · refine forall_mem_cons.2 ⟨.inl htok, forall_mem_cons.2 ⟨.inr hcomma, ih hcs⟩⟩

/-- The brackets of a receiver nest. -/
theorem TypeSpec.nests_receiverType (h : spec.receiverType.Spelled ts) :
    nests [] (ts.map (·.kind)) = true := by
  rw [receiverType, TypeExpr.Spelled] at h
  obtain ⟨star, es, rfl, hstar, hes⟩ := Form.exists_of_one_seq h
  unfold receiverBase at hes
  rw [map_cons, hstar]
  cases hparams : spec.typeParamNames with
  | nil =>
    rw [hparams] at hes
    dsimp only at hes
    rw [TypeExpr.Spelled] at hes
    obtain ⟨tok, rfl, htok, -⟩ := hes
    rw [map_singleton, htok]
    rfl
  | cons param params =>
    rw [hparams] at hes
    dsimp only at hes
    rw [TypeExpr.Spelled, TypeExpr.Spelled, map_map] at hes
    obtain ⟨_, _, ⟨tok, rfl, htok, -⟩, hwithin, rfl⟩ := hes
    obtain ⟨l, vs, r, rfl, hl, hr, hvs⟩ := Form.exists_of_within hwithin
    have hwords : Form.words (param :: params) vs := by
      have hmap : (param :: params).map ((fun a : TypeExpr => a.Spelled) ∘ .name)
          = (param :: params).map .word :=
        map_congr_left fun name _ => by rw [Function.comp_apply, TypeExpr.Spelled]
      rw [hmap] at hvs
      exact hvs
    have hneutral : ∀ k ∈ vs.map (·.kind), ∀ σ, pendingAfter σ k = some σ := by
      intro k hk σ
      obtain ⟨t, ht, rfl⟩ := mem_map.1 hk
      rcases Form.kind_of_words hwords t ht with hkind | hkind <;> rw [hkind] <;> rfl
    have hinner : nests [.rBrack] (vs.map (·.kind) ++ [.rBrack]) = true := by
      rw [nests_append hneutral]
      rfl
    simpa [htok, hl, hr, nests, pendingAfter] using hinner

namespace Parser

variable {b : Nat} {s : Cursor}

theorem rest_of_params {l r : Token} {vs : List Token} {ps : List Param} (hr : r.kind = .rParen)
    (hnests : nests [] (vs.map (·.kind)) = true)
    (h : params (typeWithin depth) ⟨l :: (vs ++ r :: rest), b⟩ = .ok (ps, s)) : s.rest = rest := by
  have hitem : (Watch.brackets rest).Sound (do
      let entry ← paramEntry (typeWithin depth)
      return (entry, ← eat .comma)) fun _ => True :=
    (sound_paramEntry (sound_typeWithin depth)).bind fun _ _ =>
      (Watch.Sound.eat fun _ => rfl).bind fun _ _ => .pure fun _ => trivial
  obtain ⟨_, s₁, hopen, h⟩ := bind_ok h
  obtain ⟨hrest₁, -⟩ := expect_ok hopen
  have hw : (Watch.brackets rest).Holds [.rParen] s₁ := by
    change tokensBehind ([] ++ [.rParen]) s₁.rest = some rest
    rw [← (List.cons.inj hrest₁).2, tokensBehind_append hnests, tokensBehind, hr]
    exact tokensBehind_nil rest
  obtain ⟨entries, s₂, hentries, h⟩ := bind_ok h
  obtain ⟨-, hw₂⟩ := (Watch.Sound.itemsUntil (Q := fun _ => True) hitem) _ _ _ _ _ hw hentries
  obtain ⟨close, s₃, hclose, h⟩ := bind_ok h
  obtain ⟨htake, hkind⟩ := expect_takes hclose
  have hw₃ : (Watch.brackets rest).Holds [] s₃ := hw₂.take htake (by rw [hkind]; rfl)
  have hs : s = s₃ := by
    cases hgroup : groupParams entries with
    | none =>
      rw [hgroup] at h
      cases h
    | some groups =>
      rw [hgroup] at h
      exact (pure_ok h).2
  rw [hs]
  exact Option.some.inj ((tokensBehind_nil _).symm.trans hw₃)

/-- Where a type is wanted, a stub is read as a function type up to the parameters of its method: the
receiver is read as the parameters, and the name as the result. -/
theorem kind?_of_typeWithin (h : Form.stub spec m ts) {t : TypeExpr}
    (htype : typeWithin depth ⟨ts ++ rest, b⟩ = .ok (t, s)) : s.kind? = some .lParen := by
  obtain ⟨func, _, rfl, hfunc, rs, _, hrs, hrest, rfl⟩ := Form.exists_of_one_seq h
  obtain ⟨name, _, rfl, hname, -, ss, bs, hss, -, rfl⟩ := Form.exists_of_word_seq hrest
  obtain ⟨l, vs, r, rfl, hl, hr, hvs⟩ := Form.exists_of_within hrs
  obtain ⟨open_, us, rfl, hopen⟩ := m.sig.startsWith_lParen ss hss
  have hlist : func :: (l :: (vs ++ [r]) ++ name :: (open_ :: us ++ bs)) ++ rest
      = func :: l :: (vs ++ r :: name :: open_ :: (us ++ (bs ++ rest))) := by
    simp
  rw [hlist] at htype
  cases depth with
  | zero => exact absurd htype failHere_ok
  | succ depth =>
    obtain ⟨o, s₁, hpeek, htype⟩ := bind_ok htype
    obtain ⟨rfl, rfl⟩ := peek_ok hpeek
    rw [head?_cons, Option.map_some, hfunc] at htype
    obtain ⟨_, s₂, hnext, hfuncType⟩ := bind_ok htype
    cases hnext
    obtain ⟨sig, s₃, hsig, hpure⟩ := bind_ok hfuncType
    obtain ⟨-, rfl⟩ := pure_ok hpure
    rw [signature_eq] at hsig
    obtain ⟨ps, ⟨rest₄, b₄⟩, hps, hresults⟩ := bind_ok hsig
    obtain rfl := rest_of_params hr (spec.nests_receiverType hvs) hps
    obtain ⟨o, s₅, hpeek, hresults⟩ := bind_ok hresults
    obtain ⟨rfl, rfl⟩ := peek_ok hpeek
    rw [head?_cons, Option.map_some, hname, if_neg (by decide), if_pos (by decide)] at hresults
    obtain ⟨t, s₆, hresult, hpure⟩ := bind_ok hresults
    obtain ⟨-, rfl⟩ := pure_ok hpure
    cases depth with
    | zero => exact absurd hresult failHere_ok
    | succ depth =>
      have hread : Parses (typeWithin (depth + 1)) (name :: open_ :: (us ++ (bs ++ rest)))
          (open_ :: (us ++ (bs ++ rest))) (.name name.text) :=
        .typeWithin_name hname (by simp [hopen]) (by simp [hopen]) depth
      obtain ⟨b₇, hread⟩ := hread b₄
      cases hread.symm.trans hresult
      exact congrArg some hopen

theorem kind?_of_element (h : Form.stub spec m ts) {e : Element}
    (helem : element (typeWithin depth) ⟨ts ++ rest, b⟩ = .ok (e, s)) : s.kind? = some .lParen := by
  have hhead : (ts ++ rest).head?.map (·.kind) = some .kwFunc := by
    obtain ⟨func, us, rfl, hfunc, -⟩ := Form.exists_of_one_seq h
    exact congrArg some hfunc
  obtain ⟨_, _, hat, helem⟩ := bind_ok helem
  obtain ⟨rfl, rfl⟩ := isAt_ok hat
  obtain ⟨_, _, hsecond, helem⟩ := bind_ok helem
  obtain ⟨rfl, rfl⟩ := peekAt_ok hsecond
  rw [hhead, if_neg (by simp)] at helem
  obtain ⟨t, s₁, hconstraint, hpure⟩ := bind_ok helem
  obtain ⟨-, rfl⟩ := pure_ok hpure
  rw [constraint_eq] at hconstraint
  obtain ⟨terms, s₂, hterms, hpure⟩ := bind_ok hconstraint
  obtain ⟨-, rfl⟩ := pure_ok hpure
  obtain ⟨_, _, hget, hrounds⟩ := bind_ok hterms
  cases hget
  obtain ⟨round, s₃, hterm, hdone⟩ := bind_ok hrounds
  obtain ⟨tilde, s₄, htilde, hterm⟩ := bind_ok hterm
  rcases eat_ok htilde with ⟨-, t, ht, hkind⟩ | ⟨rfl, rfl, -⟩
  · have hfirst : some t.kind = some .kwFunc := (Cursor.kind?_cons ht).symm.trans hhead
    rw [hkind] at hfirst
    cases hfirst
  obtain ⟨t, s₅, htype, hterm⟩ := bind_ok hterm
  have hopen := kind?_of_typeWithin h htype
  obtain ⟨pipe, s₆, hpipe, hlast⟩ := bind_ok hterm
  rcases eat_ok hpipe with ⟨-, t, ht, hkind⟩ | ⟨rfl, rfl, -⟩
  · rw [Cursor.kind?_cons ht, hkind] at hopen
    cases hopen
  obtain ⟨rfl, rfl⟩ := pure_ok hlast
  obtain ⟨-, rfl⟩ := pure_ok hdone
  exact hopen

/-- An interface that is open before stubs is not closed by them. -/
theorem blocks_of_stubs {P : Pairing} {stubs : List Method}
    (h : Form.ended (stubs.map (Form.stub spec)) P.more) : Blocks P := by
  cases stubs with
  | nil =>
    have hmore : P.more = [] := h
    exact ⟨fun t ht => by simp [hmore] at ht, fun hne => absurd hmore hne⟩
  | cons m stubs =>
    obtain ⟨as, bs, has, -, hmore⟩ := h
    refine ⟨fun t ht => ?_, fun _ depth b a s helem => ?_⟩
    · obtain ⟨func, us, rfl, hfunc, -⟩ := Form.exists_of_one_seq has
      rw [hmore] at ht
      obtain rfl : func = t := by simpa using ht
      exact hfunc
    · rw [hmore] at helem
      have hkind := kind?_of_element has helem
      obtain ⟨_ | ⟨⟨kind, text, lead, start⟩, us⟩, b'⟩ := s
      · cases hkind
      · cases hkind
        exact ⟨_, rfl⟩

end Parser

end Stubwright
