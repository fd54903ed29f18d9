import Stubwright.Proofs.RoundTrip
import Stubwright.Proofs.Taking

/-!
# Which tokens a file is read from

Reading a file takes all of its tokens, and each of its parts covers the tokens it is read from.

The declared types and the signatures of functions in it can be written down, and declared names are
identifiers.

* `Parser.reads_file`: the parts of a file cover all of its tokens.
-/

namespace Stubwright

open List

variable {ts : List Token} {kind : TokenKind} {f : SourceFile} {text : String}

/-! ## Ranges of tokens -/

/-- The range of tokens, from the first of them through the last. -/
def tokensSpan : List Token → Span
  | [] => Span.emptyAt 0
  | t :: ts => Span.between t.start (lastStop t.stop ts)

/-- Tokens of which the first is no semicolon. -/
def Headed (ts : List Token) : Prop :=
  ∃ t us, ts = t :: us ∧ t.kind ≠ .semi

theorem Headed.ne_nil (h : Headed ts) : ts ≠ [] := by
  obtain ⟨t, us, rfl, -⟩ := h
  exact cons_ne_nil t us

theorem headed_of_kind {t : Token} (ht : t.kind = kind) (hkind : kind ≠ .semi) (us : List Token) :
    Headed (t :: us) :=
  ⟨t, us, rfl, ht ▸ hkind⟩

/-- Tokens are laid out in items, each of them read from tokens that follow each other, with
semicolons between them. -/
inductive Laid {α : Type} (R : List Token → α → Prop) : List Token → List α → Prop
  | nil : Laid R [] []
  | semi {t : Token} {ts : List Token} {as : List α} (ht : t.kind = .semi) (h : Laid R ts as) :
      Laid R (t :: ts) as
  | item {us ts : List Token} {a : α} {as : List α} (ha : R us a) (h : Laid R ts as) :
      Laid R (us ++ ts) (a :: as)

namespace Laid

variable {α β : Type} {R : List Token → α → Prop} {ts us : List Token} {as bs : List α} {a : α}

theorem append (h : Laid R ts as) (h' : Laid R us bs) : Laid R (ts ++ us) (as ++ bs) := by
  induction h with
  | nil => exact h'
  | semi ht _ ih => exact .semi ht ih
  | item ha _ ih =>
    rw [append_assoc]
    exact .item ha ih

theorem singleton (ha : R us a) : Laid R us [a] := by
  simpa using Laid.item ha .nil

/-- Items with something between them that is at most a semicolon. -/
theorem ended (h : Laid R ts as) {ends : List Token}
    (hends : ends = [] ∨ ∃ t, ends = [t] ∧ t.kind = .semi) : Laid R (ts ++ ends) as := by
  have hlaid : Laid R ends [] := by
    rcases hends with rfl | ⟨t, rfl, ht⟩
    · exact .nil
    · exact .semi ht .nil
  simpa using h.append hlaid

theorem map {S : List Token → β → Prop} {f : α → β} (h : Laid R ts as)
    (hf : ∀ us a, R us a → S us (f a)) : Laid S ts (as.map f) := by
  induction h with
  | nil => exact .nil
  | semi ht _ ih => exact .semi ht ih
  | item ha _ ih => exact .item (hf _ _ ha) ih

/-- Each item is read from tokens that follow each other. -/
theorem exists_of_mem (h : Laid R ts as) (ha : a ∈ as) :
    ∃ pre mid post, ts = pre ++ mid ++ post ∧ R mid a := by
  induction h with
  | nil => cases ha
  | @semi t ts as ht _ ih =>
    obtain ⟨pre, mid, post, rfl, hmid⟩ := ih ha
    exact ⟨t :: pre, mid, post, rfl, hmid⟩
  | @item us ts b as hb _ ih =>
    rcases mem_cons.1 ha with rfl | ha
    · exact ⟨[], us, ts, rfl, hb⟩
    · obtain ⟨pre, mid, post, rfl, hmid⟩ := ih ha
      exact ⟨us ++ pre, mid, post, by simp, hmid⟩

end Laid

/-! ## What the parts of a file are read from -/

/-- The package of an import is read from its name, if there is one, and the literal with its
path. -/
structure ImportSpec.ReadFrom (spec : ImportSpec) (ts : List Token) (literal : Token) : Prop where
  isTag : Parser.isTag (some literal.kind) = true
  path : spec.path = Parser.unquote literal.text
  span : spec.span = tokensSpan ts
  name : (spec.name = none ∧ ts = [literal]) ∨ ∃ t, ts = [t, literal] ∧
    (t.kind = .ident ∧ spec.name = some t.text ∨ t.kind = .dot ∧ spec.name = some ".")

/-- An import declaration is read from its keyword and a package, or a group of packages in
parentheses. -/
structure ImportDecl.ReadFrom (d : ImportDecl) (ts : List Token) : Prop where
  headed : Headed ts
  span : d.span = tokensSpan ts
  specs : (∃ kw spec us literal, ts = kw :: us ∧ d.specs = [spec] ∧ d.lparen = none ∧
      d.rparen = none ∧ spec.ReadFrom us literal) ∨
    ∃ kw l inner r, ts = kw :: l :: inner ++ [r] ∧ d.lparen = some l.span ∧
      d.rparen = some r.span ∧
      Laid (fun us (spec : ImportSpec) => ∃ literal, spec.ReadFrom us literal) inner d.specs

def countKind (kind : TokenKind) (ts : List Token) : Nat :=
  ts.countP (·.kind == kind)

/-- Tokens from an opening brace to the closing one that first balances it. -/
structure IsBody (ts : List Token) : Prop where
  shape : ∃ l inner r, ts = l :: inner ++ [r] ∧ l.kind = .lBrace ∧ r.kind = .rBrace
  balanced : countKind .lBrace ts = countKind .rBrace ts
  first : ∀ k, 0 < k → k < ts.length →
    countKind .rBrace (ts.take k) < countKind .lBrace (ts.take k)

/-- The range of a declaration. -/
def Decl.span : Decl → Span
  | .types span _ => span
  | .func f => f.span
  | .value span => span

/-- The body of a function, if there is one, is read from the last of some tokens. -/
def FuncDecl.BodyReadFrom (f : FuncDecl) (ts : List Token) : Prop :=
  ∀ b ∈ f.body, ∃ pre mid, ts = pre ++ mid ∧ IsBody mid ∧ b = tokensSpan mid

/-- What is known of the tokens that the inner parts of a declaration are read from. -/
def Decl.InnerReadFrom (ts : List Token) : Decl → Prop
  | .types _ specs => ∀ spec ∈ specs, ∃ pre mid post, ts = pre ++ mid ++ post ∧ mid ≠ [] ∧
      spec.span = tokensSpan mid
  | .func f => f.BodyReadFrom ts
  | .value _ => True

/-- A declaration is read from the tokens in its range. -/
structure Decl.ReadFrom (d : Decl) (ts : List Token) : Prop where
  headed : Headed ts
  span : d.span = tokensSpan ts
  inner : d.InnerReadFrom ts

/-- A declared type with identifiers for its name and its type parameters and a type that can be
written down. -/
structure TypeSpec.Written (spec : TypeSpec) : Prop where
  name : isIdentifier spec.name = true
  typeParams : ∀ n ∈ spec.typeParamNames, isIdentifier n = true
  type : spec.type.Written .plain

/-- A function with an identifier for its name and a signature that can be written down. -/
def FuncDecl.Written (f : FuncDecl) : Prop :=
  isIdentifier f.name = true ∧ f.sig.Formed identified

/-- A declaration of such types or of such a function. -/
def Decl.Written : Decl → Prop
  | .types _ specs => ∀ spec ∈ specs, spec.Written
  | .func f => f.Written
  | .value _ => True

namespace Parser

variable {α β : Type} {s s' : Cursor} {n depth start : Nat} {R : List Token → α → Prop}
  {recv : Option Receiver} {close : TokenKind}

theorem ahead_ok (h : ahead s = .ok (n, s')) :
    n = (s.rest.head?.map Token.start).getD s.behind ∧ s' = s := by
  cases h
  exact ⟨rfl, rfl⟩

theorem behind_ok (h : behind s = .ok (n, s')) : n = s.behind ∧ s' = s := by
  cases h
  exact ⟨rfl, rfl⟩

/-- The range that a rule notes is that of the tokens it has taken. -/
theorem between_eq (h : s.Takes ts s') (hne : ts ≠ []) :
    Span.between ((s.rest.head?.map Token.start).getD s.behind) s'.behind = tokensSpan ts := by
  cases ts with
  | nil => exact absurd rfl hne
  | cons t ts =>
    rw [h.rest, h.behind, lastStop_cons]
    rfl

/-! ## Imports -/

theorem reads_importName : Reads importName fun ts name =>
    (name = none ∧ ts = []) ∨ ∃ t, ts = [t] ∧
      (t.kind = .ident ∧ name = some t.text ∨ t.kind = .dot ∧ name = some ".") := by
  refine Reads.isAt.bind fun _ _ hnil => ?_
  obtain rfl := hnil
  refine .ite (fun _ => ?_) fun _ => ?_
  · refine Reads.identifier.bind fun ts name hname => .pure ?_
    obtain ⟨t, rfl, hkind, rfl, -⟩ := hname
    exact .inr ⟨t, rfl, .inl ⟨hkind, rfl⟩⟩
  · refine Reads.eat.bind fun ts dot hdot => ?_
    rcases hdot with ⟨rfl, t, rfl, hkind⟩ | ⟨rfl, rfl⟩
    · exact .pure (.inr ⟨t, rfl, .inr ⟨hkind, rfl⟩⟩)
    · exact .pure (.inl ⟨rfl, rfl⟩)

theorem reads_importSpec : Reads importSpec fun ts spec =>
    ∃ literal, spec.ReadFrom ts literal := by
  intro s spec s' hs h
  obtain ⟨start, s₁, hahead, h⟩ := bind_ok h
  obtain ⟨rfl, rfl⟩ := ahead_ok hahead
  obtain ⟨name, s₂, hname, h⟩ := bind_ok h
  obtain ⟨us, hus, hfrom⟩ := reads_importName _ _ _ hs hname
  obtain ⟨kind, s₃, hpeek, h⟩ := bind_ok h
  obtain ⟨rfl, rfl⟩ := peek_ok hpeek
  cases htag : isTag (s₃.rest.head?.map (·.kind)) with
  | false =>
    rw [htag] at h
    obtain ⟨_, _, hfail, -⟩ := bind_ok h
    exact absurd hfail failHere_ok
  | true =>
    rw [htag] at h
    obtain ⟨path, s₄, hnext, h⟩ := bind_ok h
    obtain ⟨stop, s₅, hbehind, h⟩ := bind_ok h
    obtain ⟨rfl, rfl⟩ := behind_ok hbehind
    obtain ⟨rfl, rfl⟩ := pure_ok h
    rcases next?_takes hnext with ⟨-, hend, -⟩ | ⟨literal, rfl, hliteral⟩
    · rw [hend] at htag
      cases htag
    · have htakes := hus.append hliteral
      refine ⟨us ++ [literal], htakes, literal, ?_, rfl, between_eq htakes (by simp), ?_⟩
      · rw [hliteral.rest] at htag
        exact htag
      · rcases hfrom with ⟨rfl, rfl⟩ | ⟨t, rfl, ht⟩
        · exact .inl ⟨rfl, rfl⟩
        · exact .inr ⟨t, rfl, ht⟩

theorem reads_semi_or {p : Parser Unit} (h : Reads p fun ts _ => ts = []) :
    Reads (do if ← eat .semi then return else p) fun ts _ =>
      ts = [] ∨ ∃ t, ts = [t] ∧ t.kind = .semi := by
  refine Reads.eat.bind fun ts semi hsemi => ?_
  rcases hsemi with ⟨rfl, t, rfl, hkind⟩ | ⟨rfl, rfl⟩
  · exact .pure (.inr ⟨t, rfl, hkind⟩)
  · exact h.mono fun ts _ hts => .inl hts

theorem reads_endOrClose : Reads (endOrClose close) fun ts _ =>
    ts = [] ∨ ∃ t, ts = [t] ∧ t.kind = .semi := by
  refine reads_semi_or (Reads.isAt.bind fun ts _ hnil => ?_)
  exact .ite (fun _ => .pure (by simp [hnil])) fun _ => .failHere

theorem reads_itemsUntil {item : Parser (α × Bool)}
    (hitem : Reads item fun ts r => Laid R ts [r.1]) :
    Reads (itemsUntil close item) (Laid R) := by
  refine .loop (R := Laid R) .nil fun ts items hitems => ?_
  refine Reads.isAt.bind fun _ _ hnil => ?_
  obtain rfl := hnil
  refine .ite (fun _ => .pure ?_) fun _ => hitem.bind fun us r hr => ?_
  · rw [append_nil, append_nil]
    exact hitems
  · obtain ⟨a, more⟩ := r
    have hlaid := hitems.append hr
    cases more <;> exact .pure (by simpa using hlaid)

theorem reads_grouped {item : Parser α} (hitem : Reads item R) :
    Reads (grouped item) fun ts r =>
      (∃ a, r = (none, [a]) ∧ R ts a) ∨
      ∃ l inner t, r.1 = some (l, t) ∧ ts = l :: inner ++ [t] ∧ Laid R inner r.2 := by
  refine Reads.isAt.bind fun _ _ hnil => ?_
  obtain rfl := hnil
  refine .ite (fun _ => ?_) fun _ => ?_
  · refine hitem.bind fun ts a ha => .pure (.inl ⟨a, rfl, ?_⟩)
    simpa using ha
  · refine Reads.expect.bind fun _ l hl => ?_
    obtain ⟨rfl, -⟩ := hl
    refine .bind (R := Laid R) (reads_itemsUntil ?_) fun inner items hinner => ?_
    · refine hitem.bind fun ts a ha => reads_endOrClose.bind fun us _ hus => .pure ?_
      rw [append_nil]
      exact (Laid.singleton ha).ended hus
    · refine Reads.expect.bind fun _ t ht => .pure (.inr ⟨l, inner, t, rfl, ?_, hinner⟩)
      obtain ⟨rfl, -⟩ := ht
      simp

theorem reads_importDecl : Reads importDecl fun ts d => d.ReadFrom ts := by
  intro s d s' hs h
  obtain ⟨start, s₁, hahead, h⟩ := bind_ok h
  obtain ⟨rfl, rfl⟩ := ahead_ok hahead
  obtain ⟨kw, s₂, hkw, h⟩ := bind_ok h
  obtain ⟨⟨parens, specs⟩, s₃, hgrouped, h⟩ := bind_ok h
  obtain ⟨stop, s₄, hbehind, h⟩ := bind_ok h
  obtain ⟨rfl, rfl⟩ := behind_ok hbehind
  obtain ⟨rfl, rfl⟩ := pure_ok h
  obtain ⟨hkw, hkind⟩ := expect_takes hkw
  obtain ⟨us, hus, hspecs⟩ := reads_grouped reads_importSpec _ _ _ (hkw.lexed hs) hgrouped
  have htakes := hkw.append hus
  refine ⟨kw :: us, htakes, headed_of_kind hkind (by decide) us, between_eq htakes (by simp), ?_⟩
  rcases hspecs with ⟨spec, hr, literal, hspec⟩ | ⟨l, inner, r, hr, rfl, hinner⟩
  · obtain ⟨rfl, rfl⟩ := Prod.mk.inj hr
    exact .inl ⟨kw, spec, us, literal, rfl, rfl, rfl, rfl, hspec⟩
  · cases hr
    exact .inr ⟨kw, l, inner, r, rfl, rfl, rfl, hinner⟩

/-! ## Declared types -/

def NamesWritten (groups : List TypeParam) : Prop :=
  ∀ p ∈ groups, ∀ n ∈ p.names, isIdentifier n = true

theorem reads_typeParamList : Reads typeParamList fun _ r => NamesWritten r.1 := by
  refine Reads.expect.bind fun _ _ _ => ?_
  have hlast : ∀ {names : List String} {name : String}, (∀ n ∈ names, isIdentifier n = true) →
      isIdentifier name = true → ∀ n ∈ names ++ [name], isIdentifier n = true := by
    intro names name hnames hname
    exact forall_mem_append.2 ⟨hnames, forall_mem_singleton.2 hname⟩
  have hgroup : ∀ {groups : List TypeParam} {names : List String} {t : TypeExpr}, NamesWritten groups →
      (∀ n ∈ names, isIdentifier n = true) → NamesWritten (groups ++ [⟨names, t⟩]) := by
    intro groups names t hgroups hnames
    exact forall_mem_append.2 ⟨hgroups, forall_mem_singleton.2 hnames⟩
  have hnone : ∀ n ∈ ([] : List String), isIdentifier n = true := by simp
  refine (Reads.loop
    (R := fun _ (r : List TypeParam × List String × Bool) =>
      NamesWritten r.1 ∧ ∀ n ∈ r.2.1, isIdentifier n = true)
    (S := fun _ r => NamesWritten r.1) ⟨by simp [NamesWritten], hnone⟩ ?_).bind ?_
  · rintro - ⟨groups, waiting, comma⟩ ⟨hgroups, hwaiting⟩
    refine Reads.isAt.bind fun _ _ _ => .ite (fun _ => .pure hgroups) fun _ => ?_
    refine Reads.identifier.bind fun _ name ⟨t, _, _, htext, ht⟩ => ?_
    have hnames := hlast hwaiting (htext ▸ ht)
    refine Reads.eat.bind fun _ _ _ => .ite (fun _ => .pure ⟨hgroups, hnames⟩) fun _ => ?_
    refine (Reads.of_sound fun _ => sound_constraint sound_type).bind fun _ _ _ =>
      Reads.eat.bind fun _ _ _ => .ite (fun _ => .pure ⟨hgroup hgroups hnames, hnone⟩)
        fun _ => .pure (hgroup hgroups hnames)
  · rintro - ⟨groups, waiting, comma⟩ hr
    exact .ite (fun _ => .failHere_bind) fun _ =>
      Reads.expect.bind fun _ _ _ => .pure hr

theorem reads_typeParams : Reads typeParams fun _ => NamesWritten := by
  have hnone : NamesWritten [] := by simp [NamesWritten]
  refine Reads.isAt.bind fun _ _ _ => .ite (fun _ => .pure hnone) fun _ => ?_
  refine Reads.peekAt.bind fun _ _ _ => Reads.peekAt.bind fun _ _ _ =>
    .ite (fun _ => .pure hnone) fun _ => .ite (fun _ => ?_) fun _ => ?_
  · refine reads_typeParamList.attempt?.bind fun _ o ho => .pure ?_
    cases o with
    | none => exact hnone
    | some r => exact ho r rfl
  · exact reads_typeParamList.bind fun _ _ hr => .pure hr

theorem reads_typeSpec : Reads typeSpec fun ts spec =>
    (ts ≠ [] ∧ spec.span = tokensSpan ts) ∧ spec.Written := by
  intro s spec s' hs h
  obtain ⟨start, s₁, hahead, h⟩ := bind_ok h
  obtain ⟨rfl, rfl⟩ := ahead_ok hahead
  obtain ⟨name, s₂, hname, h⟩ := bind_ok h
  obtain ⟨params, s₃, hparams, h⟩ := bind_ok h
  obtain ⟨isAlias, s₄, halias, h⟩ := bind_ok h
  obtain ⟨t, s₅, htype, h⟩ := bind_ok h
  obtain ⟨stop, s₆, hbehind, h⟩ := bind_ok h
  obtain ⟨rfl, rfl⟩ := behind_ok hbehind
  obtain ⟨rfl, rfl⟩ := pure_ok h
  obtain ⟨_, has, a, rfl, -, rfl, hident⟩ := Reads.identifier _ _ _ hs hname
  obtain ⟨bs, hbs, hnames⟩ := reads_typeParams _ _ _ (has.lexed hs) hparams
  have htakes := has.append hbs
  obtain ⟨cs, hcs, -⟩ := Reads.eat _ _ _ (htakes.lexed hs) halias
  replace htakes := htakes.append hcs
  obtain ⟨ds, hds, hwritten⟩ := Reads.of_sound (fun _ => sound_type) _ _ _ (htakes.lexed hs) htype
  replace htakes := htakes.append hds
  refine ⟨_, htakes, ⟨by simp, between_eq htakes (by simp)⟩, hident, fun n hn => ?_, hwritten⟩
  obtain ⟨p, hp, hn⟩ := mem_flatMap.1 hn
  exact hnames p hp n hn

theorem reads_typeDecl : Reads typeDecl fun ts d => d.ReadFrom ts ∧ d.Written := by
  intro s d s' hs h
  obtain ⟨start, s₁, hahead, h⟩ := bind_ok h
  obtain ⟨rfl, rfl⟩ := ahead_ok hahead
  obtain ⟨kw, s₂, hkw, h⟩ := bind_ok h
  obtain ⟨⟨parens, specs⟩, s₃, hgrouped, h⟩ := bind_ok h
  obtain ⟨stop, s₄, hbehind, h⟩ := bind_ok h
  obtain ⟨rfl, rfl⟩ := behind_ok hbehind
  obtain ⟨rfl, rfl⟩ := pure_ok h
  obtain ⟨hkw, hkind⟩ := expect_takes hkw
  obtain ⟨us, hus, hspecs⟩ := reads_grouped reads_typeSpec _ _ _ (hkw.lexed hs) hgrouped
  have htakes := hkw.append hus
  have hall : ∀ spec ∈ specs, (∃ pre mid post, kw :: us = pre ++ mid ++ post ∧ mid ≠ [] ∧
      spec.span = tokensSpan mid) ∧ spec.Written := by
    intro spec hspec
    rcases hspecs with ⟨spec', hr, hfrom, hwritten⟩ | ⟨l, inner, r, -, rfl, hinner⟩
    · obtain ⟨-, rfl⟩ := Prod.mk.inj hr
      obtain rfl := mem_singleton.1 hspec
      exact ⟨⟨[kw], us, [], by simp, hfrom⟩, hwritten⟩
    · obtain ⟨pre, mid, post, rfl, hfrom, hwritten⟩ := hinner.exists_of_mem hspec
      exact ⟨⟨kw :: l :: pre, mid, post ++ [r], by simp, hfrom⟩, hwritten⟩
  exact ⟨kw :: us, htakes, ⟨headed_of_kind hkind (by decide) us, between_eq htakes (by simp),
    fun spec hspec => (hall spec hspec).1⟩, fun spec hspec => (hall spec hspec).2⟩

/-! ## Functions and values -/

@[simp] theorem countKind_nil (kind : TokenKind) : countKind kind [] = 0 :=
  rfl

theorem countKind_cons (kind : TokenKind) (t : Token) (ts : List Token) :
    countKind kind (t :: ts) = countKind kind ts + if t.kind = kind then 1 else 0 := by
  simp [countKind, countP_cons]

/-- Tokens that close a number of open braces, at the last of them and not before. -/
structure Closes (depth : Nat) (ts : List Token) : Prop where
  total : countKind .rBrace ts = depth + countKind .lBrace ts
  first : ∀ k < ts.length,
    countKind .rBrace (ts.take k) < depth + countKind .lBrace (ts.take k)
  last : 0 < depth → ∃ inner r, ts = inner ++ [r] ∧ r.kind = .rBrace

theorem Closes.nil : Closes 0 [] :=
  ⟨rfl, by simp, by simp⟩

/-- One token more in front changes the number of open braces by what it is. -/
theorem Closes.cons {depth' : Nat} {t : Token} (h : Closes depth' ts)
    (hdepth : depth' + (if t.kind = .rBrace then 1 else 0)
      = depth + 1 + (if t.kind = .lBrace then 1 else 0)) :
    Closes (depth + 1) (t :: ts) := by
  refine ⟨?_, ?_, fun _ => ?_⟩
  · rw [countKind_cons, countKind_cons, h.total]
    omega
  · intro k hk
    cases k with
    | zero => simp
    | succ k =>
      have := h.first k (by simpa using hk)
      rw [take_succ_cons, countKind_cons, countKind_cons]
      omega
  · cases depth' with
    | zero =>
      have hnil : ts = [] := by
        cases ts with
        | nil => rfl
        | cons u ts => simpa using h.first 0 (by simp)
      have hclose : t.kind = .rBrace := by
        by_contra hne
        rw [if_neg hne] at hdepth
        omega
      exact ⟨[], t, by rw [hnil]; rfl, hclose⟩
    | succ depth' =>
      obtain ⟨inner, r, rfl, hr⟩ := h.last (by omega)
      exact ⟨t :: inner, r, rfl, hr⟩

/-- Passing over a body takes tokens up to the one at which the open braces are first closed. -/
theorem skipBody_takes {behind : Nat} {s : Cursor} (h : skipBody start depth behind ts = .ok s) :
    ∃ taken, ts = taken ++ s.rest ∧ s.behind = lastStop behind taken ∧ Closes depth taken := by
  induction ts generalizing depth behind with
  | nil =>
    cases depth with
    | zero =>
      cases h
      exact ⟨[], rfl, rfl, .nil⟩
    | succ depth => cases h
  | cons t ts ih =>
    cases depth with
    | zero =>
      cases h
      exact ⟨[], rfl, rfl, .nil⟩
    | succ depth =>
      have hstep : ∀ {depth'}, skipBody start depth' t.stop ts = .ok s →
          depth' + (if t.kind = .rBrace then 1 else 0)
            = depth + 1 + (if t.kind = .lBrace then 1 else 0) →
          ∃ taken, t :: ts = taken ++ s.rest ∧ s.behind = lastStop behind taken ∧
            Closes (depth + 1) taken := by
        intro depth' h' hdepth
        obtain ⟨taken, rfl, hbehind, hcloses⟩ := ih h'
        exact ⟨t :: taken, rfl, by rw [lastStop_cons]; exact hbehind, hcloses.cons hdepth⟩
      rw [skipBody] at h
      split_ifs at h with hl hr
      · exact hstep h (by simp [hl])
      · exact hstep h (by simp [hr])
      · exact hstep h (by simp [hl, hr])

theorem reads_body : Reads body fun ts o =>
    (o = none ∧ ts = []) ∨ ∃ b, o = some b ∧ IsBody ts ∧ b = tokensSpan ts := by
  intro s o s' hs h
  obtain ⟨brace, s₁, hbrace, h⟩ := bind_ok h
  obtain ⟨rfl, rfl⟩ := isAt_ok hbrace
  cases hat : s₁.rest.head?.map (·.kind) == some .lBrace with
  | false =>
    rw [hat] at h
    obtain ⟨rfl, rfl⟩ := pure_ok h
    exact ⟨[], .nil, .inl ⟨rfl, rfl⟩⟩
  | true =>
    rw [hat] at h
    obtain ⟨l, s₂, hl, h⟩ := bind_ok h
    obtain ⟨htakes, hkind⟩ := expect_takes hl
    obtain ⟨s₃, s₄, hget, h⟩ := bind_ok h
    cases hget
    cases hskip : skipBody l.start 1 l.stop s₂.rest with
    | error fault =>
      rw [hskip] at h
      cases h
    | ok s₅ =>
      rw [hskip] at h
      obtain ⟨_, s₆, hset, h⟩ := bind_ok h
      cases hset
      cases h
      obtain ⟨taken, hrest, hbehind, hcloses⟩ := skipBody_takes hskip
      obtain ⟨inner, r, rfl, hr⟩ := hcloses.last Nat.one_pos
      have htaken : s₂.Takes (inner ++ [r]) s' := by
        refine ⟨hrest, ?_⟩
        rw [hbehind, htakes.behind]
        rfl
      refine ⟨l :: (inner ++ [r]), htakes.append htaken, .inr ⟨_, rfl, ⟨?_, ?_, ?_⟩, ?_⟩⟩
      · exact ⟨l, inner, r, rfl, hkind, hr⟩
      · rw [countKind_cons, countKind_cons, hcloses.total]
        simp [hkind, Nat.add_comm]
      · intro k hpos hk
        obtain ⟨k, rfl⟩ := Nat.exists_eq_succ_of_ne_zero hpos.ne'
        have := hcloses.first k (by simpa using hk)
        rw [take_succ_cons, countKind_cons, countKind_cons]
        simp only [hkind, if_true, reduceCtorEq, if_false]
        omega
      · rw [tokensSpan, hbehind]

theorem reads_receiver : Reads receiver fun _ _ => True := by
  refine Reads.ahead.bind fun _ _ _ =>
    (Reads.of_sound fun _ => sound_params sound_type).bind fun _ ps _ => ?_
  cases receiver? ps with
  | some r => exact .pure trivial
  | none =>
    intro s a s' hs h
    cases h

/-- The tail of a function declaration, which notes a range that starts at `start`. -/
def TailReads (start : Nat) (p : Parser Decl) : Prop :=
  ∀ s d s', Lexed s.rest → p s = .ok (d, s') → ∃ ts f, s.Takes ts s' ∧ d = .func f ∧
    f.span = Span.between start s'.behind ∧ f.BodyReadFrom ts ∧ f.Written

theorem TailReads.bind {p : Parser α} {f : α → Parser Decl}
    (hp : Reads p R) (hf : ∀ ts a, R ts a → TailReads start (f a)) : TailReads start (p >>= f) := by
  intro s d s' hs h
  obtain ⟨a, s₁, hp₁, hf₁⟩ := bind_ok h
  obtain ⟨as, has, ha⟩ := hp s a s₁ hs hp₁
  obtain ⟨ts, decl, hts, rfl, hspan, hbody, hwritten⟩ := hf as a ha s₁ d s' (has.lexed hs) hf₁
  refine ⟨as ++ ts, decl, has.append hts, rfl, hspan, fun b hb => ?_, hwritten⟩
  obtain ⟨pre, mid, rfl, hmid⟩ := hbody b hb
  exact ⟨as ++ pre, mid, by simp, hmid⟩

theorem TailReads.ite {P : Prop} [Decidable P] {p q : Parser Decl} (hp : TailReads start p)
    (hq : TailReads start q) : TailReads start (if P then p else q) := by
  split
  · exact hp
  · exact hq

/-- What stands behind the name and the type parameters of a function. -/
def funcTail (start : Nat) (recv : Option Receiver) (name : String) (typeParams : List TypeParam) :
    Parser Decl := do
  let sig ← signature type
  let body ← body
  return .func { recv, name, typeParams, sig, body, span := Span.between start (← behind) }

/-- What stands behind the receiver of a function. -/
def namedFunc (start : Nat) (recv : Option Receiver) : Parser Decl := do
  let name ← identifier
  let typeParams ← if ← isAt .lBrack then pure (← typeParamList).1 else pure []
  funcTail start recv name typeParams

theorem funcDecl_eq :
    funcDecl = (do
      let start ← ahead
      let _ ← expect .kwFunc
      let recv ← if ← isAt .lParen then pure (some (← receiver)) else pure none
      namedFunc start recv) :=
  rfl

theorem reads_funcTail {name : String} {typeParams : List TypeParam}
    (hname : isIdentifier name = true) : TailReads start (funcTail start recv name typeParams) := by
  refine .bind (.of_sound fun _ => sound_signature sound_type) fun _ sig hsig => ?_
  intro s d s' hs h
  obtain ⟨block, s₁, hblock, h⟩ := bind_ok h
  obtain ⟨stop, s₂, hbehind, h⟩ := bind_ok h
  obtain ⟨rfl, rfl⟩ := behind_ok hbehind
  obtain ⟨rfl, rfl⟩ := pure_ok h
  obtain ⟨ts, hts, hfrom⟩ := reads_body _ _ _ hs hblock
  refine ⟨ts, _, hts, rfl, rfl, fun b hb => ?_, hname, hsig⟩
  rcases hfrom with ⟨rfl, -⟩ | ⟨b', rfl, hbody, rfl⟩
  · cases hb
  · cases hb
    exact ⟨[], ts, rfl, hbody, rfl⟩

theorem reads_namedFunc : TailReads start (namedFunc start recv) := by
  refine .bind .identifier fun _ name ⟨t, _, _, htext, ht⟩ =>
    .bind .isAt fun _ _ _ => .ite ?_ ?_
  · exact .bind reads_typeParamList fun _ _ _ =>
      .bind (R := fun _ _ => True) (.pure trivial) fun _ _ _ => reads_funcTail (htext ▸ ht)
  · exact .bind (R := fun _ _ => True) (.pure trivial) fun _ _ _ =>
      reads_funcTail (htext ▸ ht)

theorem reads_funcDecl : Reads funcDecl fun ts d => d.ReadFrom ts ∧ d.Written := by
  rw [funcDecl_eq]
  intro s d s' hs h
  obtain ⟨start, s₁, hahead, h⟩ := bind_ok h
  obtain ⟨rfl, rfl⟩ := ahead_ok hahead
  obtain ⟨kw, s₂, hkw, h⟩ := bind_ok h
  have htail : ∀ start, TailReads start (do
      let recv ← if ← isAt .lParen then pure (some (← receiver)) else pure none
      namedFunc start recv) := by
    intro start
    refine .bind .isAt fun _ _ _ => .ite ?_ ?_
    · exact .bind reads_receiver fun _ _ _ =>
        .bind (R := fun _ _ => True) (.pure trivial) fun _ _ _ => reads_namedFunc
    · exact .bind (R := fun _ _ => True) (.pure trivial) fun _ _ _ => reads_namedFunc
  obtain ⟨hkw, hkind⟩ := expect_takes hkw
  obtain ⟨ts, f, hts, rfl, hspan, hinner, hwritten⟩ := htail _ _ _ _ (hkw.lexed hs) h
  have htakes := hkw.append hts
  refine ⟨kw :: ts, htakes, ⟨headed_of_kind hkind (by decide) ts,
    hspan.trans (between_eq htakes (by simp)), fun b hb => ?_⟩, hwritten⟩
  obtain ⟨pre, mid, rfl, hmid⟩ := hinner b hb
  exact ⟨kw :: pre, mid, rfl, hmid⟩

theorem skipValue_ok {depth behind : Nat} {ts : List Token} {s : Cursor}
    (h : skipValue depth behind ts = .ok s) :
    ∃ taken, ts = taken ++ s.rest ∧ s.behind = lastStop behind taken := by
  induction ts generalizing depth behind with
  | nil =>
    rw [skipValue] at h
    split at h
    · cases h
      exact ⟨[], rfl, rfl⟩
    · cases h
  | cons t ts ih =>
    have hstep : ∀ {depth'}, skipValue depth' t.stop ts = .ok s →
        ∃ taken, t :: ts = taken ++ s.rest ∧ s.behind = lastStop behind taken := by
      intro depth' h'
      obtain ⟨taken, rfl, hbehind⟩ := ih h'
      exact ⟨t :: taken, rfl, by rw [lastStop_cons]; exact hbehind⟩
    rw [skipValue] at h
    split at h
    · exact hstep h
    · exact hstep h
    · exact hstep h
    · split at h
      · cases h
      · exact hstep h
    · split at h
      · cases h
      · exact hstep h
    · split at h
      · cases h
      · exact hstep h
    · split at h
      · cases h
        exact ⟨[], rfl, rfl⟩
      · exact hstep h
    · exact hstep h

theorem reads_valueDecl {d : Decl} (hhead : s.rest.head?.map (·.kind) = some kind)
    (hkind : kind ≠ .semi) (h : valueDecl s = .ok (d, s')) :
    ∃ ts, s.Takes ts s' ∧ d.ReadFrom ts ∧ d.Written := by
  obtain ⟨start, s₁, hahead, h⟩ := bind_ok h
  obtain ⟨rfl, rfl⟩ := ahead_ok hahead
  obtain ⟨o, s₂, hnext, h⟩ := bind_ok h
  rcases next?_takes hnext with ⟨-, hend, -⟩ | ⟨kw, rfl, hkw⟩
  · rw [hend] at hhead
    cases hhead
  obtain ⟨s₃, s₄, hget, h⟩ := bind_ok h
  cases hget
  cases hskip : skipValue 0 s₂.behind s₂.rest with
  | error fault =>
    rw [hskip] at h
    cases h
  | ok s₅ =>
    rw [hskip] at h
    obtain ⟨_, s₆, hset, h⟩ := bind_ok h
    cases hset
    cases h
    obtain ⟨taken, hrest, hbehind⟩ := skipValue_ok hskip
    have htakes := hkw.append ⟨hrest, hbehind⟩
    rw [hkw.rest] at hhead
    exact ⟨kw :: taken, htakes, ⟨headed_of_kind (Option.some.inj hhead) hkind taken,
      between_eq htakes (by simp), trivial⟩, trivial⟩

/-! ## Files -/

theorem reads_topLevelEnd : Reads topLevelEnd fun ts _ =>
    ts = [] ∨ ∃ t, ts = [t] ∧ t.kind = .semi := by
  refine reads_semi_or (Reads.atEnd.bind fun ts _ hnil => ?_)
  exact .ite (fun _ => .pure (by simp [hnil])) fun _ => .failHere

theorem reads_decl {d : Option Decl} (hs : Lexed s.rest)
    (hhead : s.rest.head?.map (·.kind) = some kind) (h : decl kind s = .ok (d, s')) :
    ∃ ts, s.Takes ts s' ∧ Laid (fun ts d => d.ReadFrom ts ∧ d.Written) ts d.toList := by
  have hsome : ∀ {p : Parser Decl},
      (∀ d, p s = .ok (d, s') → ∃ ts, s.Takes ts s' ∧ d.ReadFrom ts ∧ d.Written) →
      (do return some (← p) : Parser (Option Decl)) s = .ok (d, s') →
      ∃ ts, s.Takes ts s' ∧ Laid (fun ts d => d.ReadFrom ts ∧ d.Written) ts d.toList := by
    intro p hp h
    obtain ⟨d', s₁, hd', h⟩ := bind_ok h
    obtain ⟨rfl, rfl⟩ := pure_ok h
    obtain ⟨ts, hts, hread⟩ := hp d' hd'
    exact ⟨ts, hts, .singleton hread⟩
  unfold decl at h
  split at h
  · exact hsome (fun d hd => reads_typeDecl _ _ _ hs hd) h
  · exact hsome (fun d hd => reads_funcDecl _ _ _ hs hd) h
  · exact hsome (fun d hd => reads_valueDecl hhead (by decide) hd) h
  · exact hsome (fun d hd => reads_valueDecl hhead (by decide) hd) h
  · exact absurd h failHere_ok
  · obtain ⟨rfl, rfl⟩ := pure_ok h
    exact ⟨[], .nil, .nil⟩
  · exact absurd h failHere_ok

theorem reads_importDecls :
    Reads importDecls (Laid fun ts (d : ImportDecl) => d.ReadFrom ts) := by
  refine .loop (R := Laid fun ts (d : ImportDecl) => d.ReadFrom ts) .nil
    fun ts imports himports => ?_
  refine Reads.isAt.bind fun _ _ hnil => ?_
  obtain rfl := hnil
  refine .ite (fun _ => .pure ?_) fun _ => ?_
  · simpa using himports
  · refine reads_importDecl.bind fun us d hd => reads_topLevelEnd.bind fun vs _ hvs => .pure ?_
    simpa using himports.append ((Laid.singleton hd).ended hvs)

theorem reads_decls : Reads decls (Laid fun ts (d : Decl) => d.ReadFrom ts ∧ d.Written) := by
  refine .loop (R := Laid fun ts (d : Decl) => d.ReadFrom ts ∧ d.Written) .nil
    fun ts ds hds => ?_
  intro s r s' hs h
  obtain ⟨o, s₁, hpeek, h⟩ := bind_ok h
  obtain ⟨ho, rfl⟩ := peek_ok hpeek
  cases o with
  | none =>
    obtain ⟨rfl, rfl⟩ := pure_ok h
    exact ⟨[], .nil, by simpa using hds⟩
  | some kind =>
    obtain ⟨d, s₂, hd, h⟩ := bind_ok h
    obtain ⟨_, s₃, hend, h⟩ := bind_ok h
    obtain ⟨rfl, rfl⟩ := pure_ok h
    obtain ⟨us, hus, hlaid⟩ := reads_decl hs ho.symm hd
    obtain ⟨vs, hvs, hsemi⟩ := reads_topLevelEnd _ _ _ (hus.lexed hs) hend
    exact ⟨us ++ vs, hus.append hvs, hds.append (hlaid.ended hsemi)⟩

/-- A loop ends where its last round does. -/
theorem exists_of_rounds {step : α → Parser (α ⊕ β)} {a : α} {b : β}
    (h : rounds step n a s = .ok (b, s')) : ∃ a' s₁, step a' s₁ = .ok (.inr b, s') := by
  induction n generalizing a s with
  | zero => exact absurd h failHere_ok
  | succ n ih =>
    obtain ⟨r, s₁, hstep, h⟩ := bind_ok h
    cases r with
    | inl a' => exact ih h
    | inr b' =>
      obtain ⟨rfl, rfl⟩ := pure_ok h
      exact ⟨a, s, hstep⟩

/-- The declarations of a file go up to its end. -/
theorem rest_of_decls {ds : List Decl} (h : decls s = .ok (ds, s')) : s'.rest = [] := by
  obtain ⟨ds', s₁, hstep⟩ := exists_of_rounds h
  obtain ⟨o, s₂, hpeek, h⟩ := bind_ok hstep
  obtain ⟨ho, rfl⟩ := peek_ok hpeek
  cases o with
  | none =>
    obtain ⟨-, rfl⟩ := pure_ok h
    cases hrest : s'.rest with
    | nil => rfl
    | cons t ts =>
      rw [hrest] at ho
      cases ho
  | some kind =>
    obtain ⟨d, s₃, -, h⟩ := bind_ok h
    obtain ⟨_, s₄, -, h⟩ := bind_ok h
    cases (pure_ok h).1

end Parser

/-- The ranges that a file is laid out in: the package clause, the imports and the declarations. -/
def SourceFile.parts (f : SourceFile) : List Span :=
  f.packageSpan :: (f.imports.map (·.span) ++ f.decls.map Decl.span)

def Covers (ts : List Token) (s : Span) : Prop :=
  Headed ts ∧ s = tokensSpan ts

/-- All tokens of a file are laid out in its parts. -/
theorem Parser.reads_file {s' : Cursor} (hts : Lexed ts)
    (h : Parser.file ⟨ts, 0⟩ = .ok (f, s')) :
    Laid Covers ts f.parts ∧
      (∀ d ∈ f.imports, ∃ pre mid post, ts = pre ++ mid ++ post ∧ d.ReadFrom mid) ∧
      ∀ d ∈ f.decls, ∃ pre mid post, ts = pre ++ mid ++ post ∧ d.ReadFrom mid ∧ d.Written := by
  obtain ⟨start, s₁, hahead, h⟩ := bind_ok h
  obtain ⟨rfl, rfl⟩ := ahead_ok hahead
  obtain ⟨kw, s₂, hkw, h⟩ := bind_ok h
  obtain ⟨package, s₃, hpackage, h⟩ := bind_ok h
  obtain ⟨stop, s₄, hbehind, h⟩ := bind_ok h
  obtain ⟨rfl, rfl⟩ := behind_ok hbehind
  obtain ⟨_, s₅, hend, h⟩ := bind_ok h
  obtain ⟨imports, s₆, himports, h⟩ := bind_ok h
  obtain ⟨ds, s₇, hdecls, h⟩ := bind_ok h
  obtain ⟨rfl, rfl⟩ := pure_ok h
  obtain ⟨hkw, hkind⟩ := expect_takes hkw
  obtain ⟨as, has, -⟩ := Reads.identifier _ _ _ (hkw.lexed hts) hpackage
  have hclause := hkw.append has
  obtain ⟨bs, hbs, hsemi⟩ := reads_topLevelEnd _ _ _ (hclause.lexed hts) hend
  have htop := hclause.append hbs
  obtain ⟨cs, hcs, hcs'⟩ := reads_importDecls _ _ _ (htop.lexed hts) himports
  replace htop := htop.append hcs
  obtain ⟨es, hes, hes'⟩ := reads_decls _ _ _ (htop.lexed hts) hdecls
  have hts : ts = [kw] ++ as ++ bs ++ cs ++ es := by
    have hrest := (htop.append hes).rest
    rwa [rest_of_decls hdecls, append_nil] at hrest
  have hcovers : Covers ([kw] ++ as) (.between _ s₄.behind) :=
    ⟨headed_of_kind hkind (by decide) as, between_eq hclause (by simp)⟩
  refine ⟨?_, fun d hd => ?_, fun d hd => ?_⟩
  · have himports' : Laid Covers cs (imports.map (·.span)) :=
      hcs'.map fun _ _ hd => ⟨hd.headed, hd.span⟩
    have hdecls' : Laid Covers es (ds.map Decl.span) :=
      hes'.map fun _ _ hd => ⟨hd.1.headed, hd.1.span⟩
    have hlaid := ((Laid.singleton hcovers).ended hsemi).append (himports'.append hdecls')
    rw [← append_assoc, ← hts] at hlaid
    exact hlaid
  · obtain ⟨pre, mid, post, rfl, hmid⟩ := hcs'.exists_of_mem hd
    exact ⟨[kw] ++ as ++ bs ++ pre, mid, post ++ es, by simp [hts], hmid⟩
  · obtain ⟨pre, mid, post, rfl, hmid⟩ := hes'.exists_of_mem hd
    exact ⟨[kw] ++ as ++ bs ++ cs ++ pre, mid, post, by simp [hts], hmid⟩

/-- Every declaration of a file that is read from a text can be written down. -/
theorem SourceFile.written_of_parse
    (h : SourceFile.parse text = .ok f) : ∀ d ∈ f.decls, d.Written := by
  intro d hd
  obtain ⟨ts, s', htokens, hp⟩ := Parser.run_ok h
  obtain ⟨-, -, hdecls⟩ := Parser.reads_file ⟨0, [], false, text.toList, htokens⟩ hp
  obtain ⟨-, -, -, -, -, hwritten⟩ := hdecls d hd
  exact hwritten

theorem SourceFile.typeSpec_written {spec : TypeSpec}
    (h : SourceFile.parse text = .ok f) (hspec : spec ∈ f.typeSpecs) : spec.Written := by
  obtain ⟨d, hd, hspec⟩ := mem_flatMap.1 hspec
  have hwritten := SourceFile.written_of_parse h d hd
  cases d with
  | types span specs => exact hwritten spec hspec
  | func f => cases hspec
  | value span => cases hspec

theorem SourceFile.func_written {func : FuncDecl}
    (h : SourceFile.parse text = .ok f) (hfunc : func ∈ f.funcs) : func.Written := by
  obtain ⟨d, hd, hfunc⟩ := mem_filterMap.1 hfunc
  have hwritten := SourceFile.written_of_parse h d hd
  cases d with
  | types span specs => cases hfunc
  | func f => cases hfunc; exact hwritten
  | value span => cases hfunc

end Stubwright
