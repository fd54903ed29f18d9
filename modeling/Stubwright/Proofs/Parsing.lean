import Stubwright.Proofs.Reading

/-!
# Reading printed types back

A type is read back from the tokens of its print, up to parentheses: the printer puts some around
the elements of channels and takes those around a single result away.

* `readsBack_chan`, `readsBack_union` and the like: one lemma for each kind of type.
-/

namespace Stubwright

open List hiding get set

variable {t : TypeExpr} {ts rest : List Token} {kind : TokenKind} {close : Token}

open TypeExpr hiding name

/-! ## Parentheses, and types that print unambiguously -/

mutual

/-- A type with all its parentheses taken away. -/
def TypeExpr.bare : TypeExpr → TypeExpr
  | .name n => .name n
  | .qualified p n => .qualified p n
  | .generic base args => .generic base.bare (args.map fun a => a.bare)
  | .pointer elem => .pointer elem.bare
  | .slice elem => .slice elem.bare
  | .array len elem => .array len elem.bare
  | .map key value => .map key.bare value.bare
  | .chan dir elem => .chan dir elem.bare
  | .func sig => .func sig.bare
  | .interface elems => .interface (elems.map fun e => e.bare)
  | .struct fields => .struct (fields.map fun f => f.bare)
  | .paren elem => elem.bare
  | .ellipsis elem => .ellipsis elem.bare
  | .union terms => .union (terms.map fun t => t.bare)

/-- A signature with all its parentheses around types taken away. -/
def Signature.bare : Signature → Signature
  | ⟨params, results⟩ => ⟨params.map fun p => p.bare, results.map fun p => p.bare⟩

/-- A group of parameters with all its parentheses taken away. -/
def Param.bare : Param → Param
  | ⟨names, type⟩ => ⟨names, type.bare⟩

/-- An element of an interface with all its parentheses taken away. -/
def Element.bare : Element → Element
  | .method name sig => .method name sig.bare
  | .embed type => .embed type.bare

/-- A group of fields with all its parentheses taken away. -/
def Field.bare : Field → Field
  | ⟨names, type, tag⟩ => ⟨names, type.bare, tag⟩

/-- A term of a union with all its parentheses taken away. -/
def Term.bare : Term → Term
  | ⟨tilde, type⟩ => ⟨tilde, type.bare⟩

end

/-- Whether the brackets in the length of a type nest, if it is an array. -/
def TypeExpr.lengthNests : TypeExpr → Bool
  | .array len _ => nests [] (lengthKinds len)
  | _ => true

mutual

/-- Whether no result of a function in a type is variadic, and in the length of every array that
stands behind a name the brackets nest. -/
def TypeExpr.isRegular : TypeExpr → Bool
  | .name _ | .qualified .. => true
  | .generic base args => base.isRegular && (args.map fun a => a.isRegular).all id
  | .pointer elem => elem.isRegular
  | .slice elem => elem.isRegular
  | .array _ elem => elem.isRegular
  | .map key value => key.isRegular && value.isRegular
  | .chan _ elem => elem.isRegular
  | .func sig => sig.isRegular
  | .interface elems => (elems.map fun e => e.isRegular).all id
  | .struct fields => (fields.map fun f => f.isRegular).all id
  | .paren elem => elem.isRegular
  | .ellipsis elem => elem.isRegular
  | .union terms => (terms.map fun t => t.isRegular).all id

/-- The same for the types of a signature. -/
def Signature.isRegular : Signature → Bool
  | ⟨params, results⟩ => (params.map fun p => p.isRegular).all id &&
      (results.map fun p => p.isRegular && !p.type.isEllipsis).all id

/-- The same for the type of a group of parameters, whose last name stands before it. -/
def Param.isRegular : Param → Bool
  | ⟨names, type⟩ => type.isRegular && (names.isEmpty || type.lengthNests)

/-- The same for the types of an element. -/
def Element.isRegular : Element → Bool
  | .method _ sig => sig.isRegular
  | .embed type => type.isRegular

/-- The same for the type of a group of fields.  Only a single name is taken for the name of an
instantiated type. -/
def Field.isRegular : Field → Bool
  | ⟨names, type, _⟩ => type.isRegular && (names.length != 1 || type.lengthNests)

/-- The same for the type of a term. -/
def Term.isRegular : Term → Bool
  | ⟨_, type⟩ => type.isRegular

end

/-! ## Readings that succeed -/

/-- Wherever the tokens `ts` are left, `p` reads `a` and leaves `rest`. -/
def Parses {α : Type} (p : Parser α) (ts rest : List Token) (a : α) : Prop :=
  ∀ behind, ∃ behind', p ⟨ts, behind⟩ = .ok (a, ⟨rest, behind'⟩)

namespace Parses

open Stubwright.Parser

variable {α β : Type} {p : Parser α} {a : α} {ts us rest : List Token} {t : Token}
  {kind : TokenKind} {step : α → Parser (α ⊕ β)} {keep : α → Cursor → Bool} {b : β} {n : Nat}

theorem pure : Parses (pure a) ts ts a :=
  fun behind => ⟨behind, rfl⟩

theorem bind {f : α → Parser β} (hp : Parses p ts us a) (hf : Parses (f a) us rest b) :
    Parses (p >>= f) ts rest b := by
  intro behind
  obtain ⟨behind₁, hp⟩ := hp behind
  obtain ⟨behind₂, hf⟩ := hf behind₁
  refine ⟨behind₂, ?_⟩
  change (p ⟨ts, behind⟩ >>= fun r => f r.1 r.2) = _
  rw [hp]
  exact hf

theorem peekAt : Parses (peekAt n) ts ts (ts[n]?.map (·.kind)) :=
  fun behind => ⟨behind, rfl⟩

theorem peek : Parses peek ts ts (ts.head?.map (·.kind)) := by
  rw [head?_eq_getElem?]
  exact peekAt

theorem isAt : Parses (isAt kind) ts ts (ts.head?.map (·.kind) == some kind) :=
  peek.bind pure

theorem next? : Parses next? (t :: ts) ts (some t) :=
  fun _ => ⟨t.stop, rfl⟩

/-- A reading that goes by the kind of the first token and then takes the token. -/
theorem peek_next {f : Option TokenKind → Parser α} {g : Option Token → Parser α}
    (hkind : t.kind = kind) (hf : f (some kind) = Parser.next? >>= g)
    (h : Parses (g (some t)) ts us a) : Parses (Parser.peek >>= f) (t :: ts) us a := by
  refine peek.bind ?_
  rw [head?_cons, Option.map_some, hkind, hf]
  exact next?.bind h

theorem expect (h : t.kind = kind) : Parses (expect kind) (t :: ts) ts t :=
  fun _ => ⟨t.stop, if_pos h⟩

theorem identifier (h : t.kind = .ident) : Parses identifier (t :: ts) ts t.text :=
  (expect h).bind pure

theorem eat_true (h : t.kind = kind) : Parses (eat kind) (t :: ts) ts true :=
  fun _ => ⟨t.stop, if_pos h⟩

theorem eat_false (h : ts.head?.map (·.kind) ≠ some kind) : Parses (eat kind) ts ts false := by
  intro behind
  refine ⟨behind, ?_⟩
  cases ts with
  | nil => rfl
  | cons t ts => exact if_neg fun hkind => h (congrArg some hkind)

theorem attempt?_some (hp : Parses p ts rest a)
    (hkeep : ∀ behind, keep a ⟨rest, behind⟩ = true) :
    Parses (attempt? p keep) ts rest (some a) := by
  intro behind
  obtain ⟨behind', hp⟩ := hp behind
  refine ⟨behind', ?_⟩
  rw [attempt?, hp]
  simp [hkeep behind']

theorem attempt?_none
    (hp : ∀ behind a s, p ⟨ts, behind⟩ = .ok (a, s) → keep a s = false) :
    Parses (attempt? p keep) ts ts none := by
  intro behind
  refine ⟨behind, ?_⟩
  rw [attempt?]
  split
  · rename_i a s hok
    rw [hp behind a s hok]
    rfl
  · rfl

/-! ### Lists of items -/

/-- A round of a loop that wants another one. -/
theorem rounds_inl {a a' : α}
    (hstep : Parses (step a) ts us (.inl a')) (hnext : Parses (rounds step n a') us rest b) :
    Parses (rounds step (n + 1) a) ts rest b :=
  hstep.bind hnext

/-- The last round of a loop. -/
theorem rounds_inr {a : α}
    (hstep : Parses (step a) ts rest (.inr b)) : Parses (rounds step (n + 1) a) ts rest b :=
  hstep.bind pure

/-- A loop has as many rounds as there are tokens, and one more. -/
theorem loop {a : α}
    (h : Parses (rounds step (ts.length + 1) a) ts rest b) : Parses (loop step a) ts rest b :=
  fun behind => h behind

end Parses

/-- Items are read one after the other up to a closing mark, each leaving fewer tokens. -/
inductive Items {α : Type} (close : TokenKind) (item : Parser (α × Bool)) :
    List Token → List Token → List α → Prop
  | stop {ts : List Token} (h : ts.head?.map (·.kind) = some close) : Items close item ts ts []
  | last {ts rest : List Token} {a : α} (h : ts.head?.map (·.kind) ≠ some close)
      (hitem : Parses item ts rest (a, false)) : Items close item ts rest [a]
  | more {ts us rest : List Token} {a : α} {as : List α} (h : ts.head?.map (·.kind) ≠ some close)
      (hitem : Parses item ts us (a, true)) (hlt : us.length < ts.length)
      (hrest : Items close item us rest as) : Items close item ts rest (a :: as)

namespace Items

open Stubwright.Parser

variable {α : Type} {close : TokenKind} {item : Parser (α × Bool)} {ts us rest : List Token} {a : α}
  {as : List α}

theorem parses_rounds (h : Items close item ts rest as) {n : Nat} (hn : ts.length < n)
    (acc : List α) :
    Parses (rounds (fun items => do
      if ← isAt close then return .inr items
      let (a, another) ← item
      return if another then .inl (items ++ [a]) else .inr (items ++ [a])) n acc) ts rest
      (acc ++ as) := by
  induction h generalizing n acc with
  | stop h =>
    obtain ⟨m, rfl⟩ : ∃ m, n = m + 1 := ⟨n - 1, by omega⟩
    refine .rounds_inr (Parses.isAt.bind ?_)
    rw [h, append_nil, if_pos (by simp)]
    exact .pure
  | last h hitem =>
    obtain ⟨m, rfl⟩ : ∃ m, n = m + 1 := ⟨n - 1, by omega⟩
    refine .rounds_inr (Parses.isAt.bind ?_)
    rw [if_neg (by simpa using h)]
    exact hitem.bind .pure
  | more h hitem hlt _ ih =>
    obtain ⟨m, rfl⟩ : ∃ m, n = m + 1 := ⟨n - 1, by omega⟩
    rw [← singleton_append, ← append_assoc]
    refine .rounds_inl (Parses.isAt.bind ?_) (ih (by omega) _)
    rw [if_neg (by simpa using h)]
    exact hitem.bind .pure

theorem parses (h : Items close item ts rest as) :
    Parses (itemsUntil close item) ts rest as :=
  .loop (h.parses_rounds (Nat.lt_succ_self _) [])

end Items

/-! ## First tokens, and tokens behind a type -/

namespace Form

variable {F : Form} {kind opening closing : TokenKind} {ts : List Token}

theorem exists_of_one_seq (h : (Form.one kind).seq F ts) :
    ∃ t us, ts = t :: us ∧ t.kind = kind ∧ F us := by
  obtain ⟨_, us, ⟨t, rfl, hkind⟩, hF, rfl⟩ := h
  exact ⟨t, us, rfl, hkind, hF⟩

theorem exists_of_word_seq {name : String} (h : (Form.word name).seq F ts) :
    ∃ t us, ts = t :: us ∧ t.kind = .ident ∧ t.text = name ∧ F us := by
  obtain ⟨_, us, ⟨t, rfl, hkind, htext⟩, hF, rfl⟩ := h
  exact ⟨t, us, rfl, hkind, htext, hF⟩

theorem exists_of_within (h : Form.within opening closing F ts) :
    ∃ l us r, ts = l :: (us ++ [r]) ∧ l.kind = opening ∧ r.kind = closing ∧ F us := by
  obtain ⟨l, _, rfl, hl, us, _, hF, ⟨r, rfl, hr⟩, rfl⟩ := exists_of_one_seq h
  exact ⟨l, us, r, rfl, hl, hr, hF⟩

/-- Tokens of the form `F` begin with one of a kind. -/
def StartsWith (F : Form) (kind : TokenKind) : Prop :=
  ∀ ts, F ts → ∃ t us, ts = t :: us ∧ t.kind = kind

theorem startsWith_one : (Form.one kind).StartsWith kind := by
  rintro _ ⟨t, rfl, hkind⟩
  exact ⟨t, [], rfl, hkind⟩

theorem startsWith_text {s : String} : (Form.text kind s).StartsWith kind :=
  fun ts h => startsWith_one ts (one_of_text h)

theorem StartsWith.seq {G : Form} (h : F.StartsWith kind) : (F.seq G).StartsWith kind := by
  rintro _ ⟨as, bs, hF, -, rfl⟩
  obtain ⟨t, us, rfl, hkind⟩ := h as hF
  exact ⟨t, us ++ bs, rfl, hkind⟩

theorem words_nil_seq (F : Form) : (Form.words []).seq F = F := by
  funext ts
  refine propext ⟨?_, fun h => ⟨[], ts, rfl, h, rfl⟩⟩
  rintro ⟨_, us, rfl, h, rfl⟩
  exact h

end Form

/-- The kind of the first token of a type that can stand anywhere. -/
def TypeExpr.firstKind : TypeExpr → TokenKind
  | .name _ | .qualified .. | .generic .. => .ident
  | .pointer _ => .star
  | .slice _ | .array .. => .lBrack
  | .map .. => .kwMap
  | .chan .recv _ => .arrow
  | .chan .. => .kwChan
  | .func _ => .kwFunc
  | .interface _ => .kwInterface
  | .struct _ => .kwStruct
  | .paren _ => .lParen
  | .ellipsis _ => .ellipsis
  | .union _ => .tilde

theorem TypeExpr.startsType_firstKind (h : t.Written .plain) :
    t.firstKind.startsType = true := by
  cases t with
  | chan dir elem => cases dir <;> rfl
  | ellipsis elem | union terms => rw [Written, Formed] at h; cases h.1
  | _ => rfl

theorem TypeExpr.startsWith_firstKind (hunion : ∀ terms, t ≠ .union terms)
    {place : Place} (hform : t.Written place) : t.Spelled.StartsWith t.firstKind := by
  have href : ∀ {l : TypeExpr}, l.isReference = true → l.Spelled.StartsWith .ident := by
    intro l hl
    cases l with
    | name n => rw [Spelled]; exact Form.startsWith_text
    | qualified p n => rw [Spelled]; exact Form.startsWith_text.seq
    | _ => cases hl
  cases t with
  | name n => exact href rfl
  | qualified p n => exact href rfl
  | generic base args =>
    rw [Written, Formed] at hform
    rw [Spelled]
    exact (href hform.1).seq
  | pointer elem | map key value | func sig | interface elems | struct fields | paren elem
  | ellipsis elem =>
    rw [Spelled]; exact Form.startsWith_one.seq
  | slice elem | array len elem => rw [Spelled]; exact Form.startsWith_one.seq.seq
  | chan dir elem =>
    rw [Spelled]
    cases dir with
    | both => exact Form.startsWith_one.seq
    | send | recv => exact Form.startsWith_one.seq.seq
  | union terms => exact absurd rfl (hunion terms)

/-- The tokens of a type that can stand anywhere begin with one that starts a type. -/
theorem TypeExpr.exists_first (h : t.Written .plain)
    (hts : t.Spelled ts) :
    ∃ tok us, ts = tok :: us ∧ tok.kind = t.firstKind ∧ tok.kind.startsType = true := by
  have hunion : ∀ terms, t ≠ .union terms := by
    rintro terms rfl
    rw [Written, Formed] at h
    cases h.1
  obtain ⟨tok, us, rfl, hkind⟩ := startsWith_firstKind hunion h ts hts
  exact ⟨tok, us, rfl, hkind, hkind ▸ startsType_firstKind h⟩

/-- A type that is neither variadic nor a union can be written down anywhere. -/
theorem TypeExpr.Formed.plain {leaf : TypeExpr → Prop} {place : Place}
    (h : t.Formed leaf place) (hellipsis : ∀ e, t ≠ .ellipsis e) (hunion : ∀ ts, t ≠ .union ts) :
    t.Formed leaf .plain := by
  cases t with
  | ellipsis elem => exact absurd rfl (hellipsis elem)
  | union terms => exact absurd rfl (hunion terms)
  | _ => rw [Formed] at h ⊢; exact h

theorem TypeExpr.exists_first_param (h : t.Written .param)
    (hts : t.Spelled ts) : ∃ tok us, ts = tok :: us ∧ tok.kind = t.firstKind ∧
      (tok.kind = .ellipsis ∨ tok.kind.startsType = true) := by
  have hunion : ∀ terms, t ≠ .union terms := by
    rintro terms rfl
    rw [Written, Formed] at h
    cases h.1
  by_cases hellipsis : ∃ elem, t = .ellipsis elem
  · obtain ⟨elem, rfl⟩ := hellipsis
    obtain ⟨tok, us, rfl, hkind⟩ := startsWith_firstKind hunion h ts hts
    exact ⟨tok, us, rfl, hkind, .inl hkind⟩
  · obtain ⟨tok, us, rfl, hkind, hstarts⟩ :=
      exists_first (h.plain (fun elem heq => hellipsis ⟨elem, heq⟩) hunion) hts
    exact ⟨tok, us, rfl, hkind, .inr hstarts⟩

theorem TypeExpr.head_ne (h : t.Written .plain)
    (hts : t.Spelled ts) (us : List Token) (hkind : kind.startsType = false) :
    (ts ++ us).head?.map (·.kind) ≠ some kind := by
  obtain ⟨tok, us', rfl, -, hstarts⟩ := exists_first h hts
  rintro ⟨⟩
  exact absurd hstarts (Bool.eq_false_iff.1 hkind)

/-- Whether such a token may follow a type. -/
def TokenKind.endsType : TokenKind → Bool
  | .comma | .rParen | .rBrack | .lBrace | .semi | .pipe | .stringLit | .rawStringLit => true
  | _ => false

def EndsType (rest : List Token) : Prop :=
  ∀ kind ∈ rest.head?.map (·.kind), kind.endsType = true

theorem EndsType.head_ne (h : EndsType rest)
    (hkind : kind.endsType = false) : rest.head?.map (·.kind) ≠ some kind := by
  intro hhead
  rw [h kind hhead] at hkind
  cases hkind

theorem EndsType.cons {t : Token} (h : t.kind.endsType = true) :
    EndsType (t :: rest) := by
  rintro _ ⟨⟩
  exact h

theorem startsType_eq_false_of_endsType :
    kind.endsType = true → kind.startsType = false := by
  cases kind <;> decide

/-! ## Reading back -/

/-- How a type is read at a place, given a reader of types that can stand anywhere. -/
def Place.parser (place : Place) (type : Parser TypeExpr) : Parser TypeExpr :=
  match place with
  | .plain => type
  | .param => Parser.paramType type
  | .embed => Parser.constraint type

/-- Whatever follows it, a type is read back from its tokens up to parentheses. -/
def TypeExpr.ReadsBack (t : TypeExpr) : Prop :=
  ∀ place, t.Written place → t.isRegular = true → ∀ ts, t.Spelled ts → ∀ depth rest,
    ts.length ≤ depth → EndsType rest → (place = .embed → rest.head?.map (·.kind) ≠ some .pipe) →
    ∃ t', Parses (place.parser (Parser.typeWithin depth)) (ts ++ rest) rest t' ∧ t'.bare = t.bare

theorem TypeExpr.ReadsBack.of_plain (hellipsis : ∀ e, t ≠ .ellipsis e)
    (hunion : ∀ ts, t ≠ .union ts)
    (h : t.Written .plain → t.isRegular = true → ∀ ts, t.Spelled ts → ∀ depth rest,
      ts.length ≤ depth + 1 → EndsType rest →
      ∃ t', Parses (Parser.typeStep (Parser.typeWithin depth)) (ts ++ rest) rest t' ∧
        t'.bare = t.bare) : t.ReadsBack := by
  intro place hform hregular ts hts depth rest hlen hends hpipe
  have hplain := hform.plain hellipsis hunion
  obtain ⟨tok, us, rfl, -, -⟩ := exists_first hplain hts
  obtain ⟨d, rfl⟩ : ∃ d, depth = d + 1 := ⟨depth - 1, by simp at hlen; omega⟩
  obtain ⟨t', hparses, hbare⟩ := h hplain hregular _ hts d rest hlen hends
  refine ⟨t', ?_, hbare⟩
  have hhead : ∀ {kind : TokenKind}, kind.startsType = false →
      (tok :: us ++ rest).head?.map (·.kind) ≠ some kind :=
    fun hkind => head_ne hplain hts rest hkind
  cases place with
  | plain => exact hparses
  | param => exact (Parses.eat_false (hhead rfl)).bind hparses
  | embed =>
    have hterm : Parses (Parser.unionTerm (Parser.typeWithin (d + 1)) []) (tok :: us ++ rest) rest
        (.inr [⟨false, t'⟩]) :=
      (Parses.eat_false (hhead rfl)).bind (hparses.bind
        ((Parses.eat_false (hpipe rfl)).bind .pure))
    have hloop : Parses (Parser.loop (Parser.unionTerm (Parser.typeWithin (d + 1))) [])
        (tok :: us ++ rest) rest [⟨false, t'⟩] :=
      .loop (.rounds_inr hterm)
    rw [Place.parser, Parser.constraint_eq]
    exact hloop.bind .pure

/-! ## Lists with commas -/

/-- The first of several forms with a mark between neighbours. -/
theorem Form.exists_of_separated_cons {sep : TokenKind} {F : Form} {Fs : List Form}
    (h : Form.separated sep (F :: Fs) ts) :
    ∃ as bs, F as ∧ ts = as ++ bs ∧ ((Fs = [] ∧ bs = []) ∨
      Fs ≠ [] ∧ ∃ s cs, bs = s :: cs ∧ s.kind = sep ∧ Form.separated sep Fs cs) := by
  cases Fs with
  | nil => exact ⟨ts, [], h, (append_nil ts).symm, .inl ⟨rfl, rfl⟩⟩
  | cons G Gs =>
    obtain ⟨as, bs, hF, hrest, rfl⟩ := h
    obtain ⟨s, cs, rfl, hs, hG⟩ := Form.exists_of_one_seq hrest
    exact ⟨as, s :: cs, hF, rfl, .inr ⟨nofun, s, cs, rfl, hs, hG⟩⟩

namespace Parser

/-- An item and the comma behind it, if there is one. -/
def thenComma {α : Type} (p : Parser α) : Parser (α × Bool) := do
  let a ← p
  return (a, ← eat .comma)

end Parser

/-- What can stand behind an item: the closing mark, or a comma and more items. -/
def Items.Behind {α : Type} (close : TokenKind) (item : Parser (α × Bool))
    (us rest : List Token) (as : List α) : Prop :=
  (us.head?.map (·.kind) = some close ∧ us = rest ∧ as = []) ∨
    ∃ comma vs, us = comma :: vs ∧ comma.kind = .comma ∧ Items close item vs rest as

namespace Items

variable {α : Type} {close : TokenKind} {p : Parser α} {us rest : List Token} {a : α} {as : List α}
  {item : Parser (α × Bool)}

theorem Behind.head (h : Behind close item us rest as) :
    us.head?.map (·.kind) = some .comma ∨ us.head?.map (·.kind) = some close := by
  rcases h with ⟨hclose, -, -⟩ | ⟨comma, vs, rfl, hcomma, -⟩
  · exact .inr hclose
  · exact .inl (congrArg some hcomma)

theorem Behind.endsType (h : Behind close item us rest as)
    (hclose : close.endsType = true) : EndsType us := by
  intro kind hkind
  rcases h.head with hhead | hhead
  · rw [hhead] at hkind
    cases hkind
    rfl
  · rw [hhead] at hkind
    cases hkind
    exact hclose

/-- An item before the closing mark or a comma. -/
theorem cons_of_behind (ts : List Token) (hclose : close ≠ .comma)
    (hhead : (ts ++ us).head?.map (·.kind) ≠ some close) (hp : Parses p (ts ++ us) us a)
    (h : Behind close (Parser.thenComma p) us rest as) :
    Items close (Parser.thenComma p) (ts ++ us) rest (a :: as) := by
  rcases h with ⟨hus, rfl, rfl⟩ | ⟨comma, vs, rfl, hcomma, hitems⟩
  · refine .last hhead (hp.bind ((Parses.eat_false ?_).bind .pure))
    rw [hus]
    exact fun heq => hclose (Option.some.inj heq)
  · refine .more hhead (hp.bind ((Parses.eat_true hcomma).bind .pure)) ?_ hitems
    rw [length_append, length_cons]
    omega

/-- Items that are written with commas between them are read one after the other, if each is read
before what can stand behind it.  `R` says what the items read have to do with those written. -/
theorem of_separated {β : Type} {form : β → Form} {depth : Nat} {R : List β → List α → Prop}
    (hnil : R [] []) {xs : List β}
    (hcons : ∀ x ∈ xs, ∀ ts us rest ys as, form x ts → ts.length ≤ depth →
      Behind close (Parser.thenComma p) us rest as → R ys as →
      ∃ as', Items close (Parser.thenComma p) (ts ++ us) rest as' ∧ R (x :: ys) as')
    {ts : List Token} (h : Form.separated .comma (xs.map form) ts) (hlen : ts.length ≤ depth)
    {closing : Token} (hclosing : closing.kind = close) (rest : List Token) :
    ∃ as, Items close (Parser.thenComma p) (ts ++ closing :: rest) (closing :: rest) as ∧
      R xs as := by
  induction xs generalizing ts with
  | nil =>
    obtain rfl : ts = [] := h
    exact ⟨[], .stop (congrArg some hclosing), hnil⟩
  | cons x xs ih =>
    obtain ⟨cs, bs, hx, rfl, hbs⟩ := Form.exists_of_separated_cons h
    rw [length_append] at hlen
    obtain ⟨as, hbehind, hR⟩ : ∃ as, Behind close (Parser.thenComma p) (bs ++ closing :: rest)
        (closing :: rest) as ∧ R xs as := by
      rcases hbs with ⟨hone, rfl⟩ | ⟨-, comma, ds, rfl, hcomma, hds⟩
      · rw [map_eq_nil_iff.1 hone]
        exact ⟨[], .inl ⟨congrArg some hclosing, rfl, rfl⟩, hnil⟩
      · rw [length_cons] at hlen
        obtain ⟨as, hitems, hR⟩ :=
          ih (fun y hy => hcons y (mem_cons_of_mem _ hy)) hds (by omega)
        exact ⟨as, .inr ⟨comma, _, rfl, hcomma, hitems⟩, hR⟩
    obtain ⟨as', hitems, hR'⟩ :=
      hcons x mem_cons_self cs _ _ xs as hx (by omega) hbehind hR
    rw [append_assoc]
    exact ⟨as', hitems, hR'⟩

end Items

theorem items_typeArgs {args : List TypeExpr} (hargs : ∀ a ∈ args, a.ReadsBack)
    (hform : ∀ a ∈ args, a.Written .plain) (hregular : ∀ a ∈ args, a.isRegular = true)
    (h : Form.separated .comma (args.map fun a => a.Spelled) ts) {depth : Nat}
    (hlen : ts.length ≤ depth) (hclose : close.kind = .rBrack) (rest : List Token) :
    ∃ args', Items .rBrack (Parser.thenComma (Parser.typeWithin depth)) (ts ++ close :: rest)
      (close :: rest) args' ∧ args'.map (fun a => a.bare) = args.map fun a => a.bare := by
  refine Items.of_separated (R := fun (args args' : List TypeExpr) =>
    args'.map (fun a => a.bare) = args.map fun a => a.bare) rfl ?_ h hlen hclose rest
  intro a ha ts us rest args args' hts hlen hbehind hbare
  obtain ⟨a', hparses, ha'⟩ := hargs a ha .plain (hform a ha) (hregular a ha) ts hts depth us hlen
    (hbehind.endsType rfl) nofun
  refine ⟨a' :: args', ?_, by rw [map_cons, map_cons, ha', hbare]⟩
  exact Items.cons_of_behind ts (by decide) (a.head_ne (hform a ha) hts _ rfl) hparses hbehind

/-! ## Names, elements, keys and values -/

namespace Parses

open Stubwright.Parser

variable {type : Parser TypeExpr} {ts us rest : List Token} {base t : TypeExpr}

/-- A name without arguments. -/
theorem typeArgs_none (h : us.head?.map (·.kind) ≠ some .lBrack) :
    Parses (typeArgs type base) us us base :=
  (eat_false h).bind pure

/-- A name with arguments. -/
theorem typeArgs_some {l : Token} {args : List TypeExpr} (hl : l.kind = .lBrack)
    (hitems : Items .rBrack (thenComma type) ts us args) {r : Token} (hr : r.kind = .rBrack)
    (hus : us = r :: rest) (hne : args ≠ []) :
    Parses (typeArgs type base) (l :: ts) rest (.generic base args) := by
  subst hus
  refine (eat_true hl).bind (hitems.parses.bind ((expect hr).bind ?_))
  rw [if_neg (by simpa using hne)]
  exact pure

/-- A type name, given how what follows it is read. -/
theorem typeName (hbase : base.isReference = true) {bs : List Token} (hbs : base.Spelled bs)
    (hdot : us.head?.map (·.kind) ≠ some .dot) (h : Parses (typeArgs type base) us rest t) :
    Parses (typeName type) (bs ++ us) rest t := by
  rw [typeName_eq]
  cases base with
  | name n =>
    rw [Spelled] at hbs
    obtain ⟨tok, rfl, hkind, rfl⟩ := hbs
    exact (identifier hkind).bind ((eat_false hdot).bind h)
  | qualified p n =>
    rw [Spelled] at hbs
    obtain ⟨tok, _, rfl, hkind, rfl, hrest⟩ := Form.exists_of_word_seq hbs
    obtain ⟨dot, _, rfl, hdot, last, rfl, hlast, rfl⟩ := Form.exists_of_one_seq hrest
    exact (identifier hkind).bind ((eat_true hdot).bind ((identifier hlast).bind h))
  | _ => cases hbase

/-- A type that starts with a name. -/
theorem typeStep_ident (hkind : ts.head?.map (·.kind) = some .ident)
    (h : Parses (Parser.typeName type) ts rest t) : Parses (typeStep type) ts rest t := by
  refine peek.bind ?_
  rw [hkind]
  exact h

end Parses

namespace TypeExpr

variable {elem : TypeExpr}

open Stubwright.Parser

/-- A name is read back. -/
theorem readsBack_of_isReference {t : TypeExpr} (ht : t.isReference = true) : t.ReadsBack := by
  refine .of_plain (by rintro e rfl; cases ht) (by rintro ts rfl; cases ht) ?_
  intro hplain _ ts hts depth rest _ hends
  refine ⟨t, .typeStep_ident ?_ ?_, rfl⟩
  · obtain ⟨tok, us, rfl, hkind, -⟩ := exists_first hplain hts
    refine congrArg some (hkind.trans ?_)
    cases t with
    | name n => rfl
    | qualified p n => rfl
    | _ => cases ht
  · exact .typeName ht hts (hends.head_ne rfl) (.typeArgs_none (hends.head_ne rfl))

theorem readsBack_generic {base : TypeExpr} {args : List TypeExpr}
    (hargs : ∀ a ∈ args, a.ReadsBack) : (generic base args).ReadsBack := by
  refine .of_plain nofun nofun ?_
  intro hplain hregular ts hts depth rest hlen hends
  have hhead : (ts ++ rest).head?.map (·.kind) = some .ident := by
    obtain ⟨tok, us, rfl, hkind, -⟩ := exists_first hplain hts
    exact congrArg some hkind
  rw [Written, Formed] at hplain
  obtain ⟨hbase, -, hne, hform⟩ := hplain
  rw [isRegular, Bool.and_eq_true] at hregular
  rw [Spelled] at hts
  obtain ⟨bs, _, hbs, hwithin, rfl⟩ := hts
  obtain ⟨l, vs, r, rfl, hl, hr, hvs⟩ := Form.exists_of_within hwithin
  have hdepth : vs.length ≤ depth := by
    simp only [length_append, length_cons] at hlen
    omega
  obtain ⟨args', hitems, hbare⟩ :=
    items_typeArgs hargs hform (by simpa using hregular.2) hvs hdepth hr rest
  have hne' : args' ≠ [] := by
    rintro rfl
    exact hne (map_eq_nil_iff.1 hbare.symm)
  have hlist : bs ++ l :: (vs ++ [r]) ++ rest = bs ++ l :: (vs ++ r :: rest) := by simp
  rw [hlist] at hhead ⊢
  refine ⟨.generic base args', .typeStep_ident hhead ?_, ?_⟩
  · exact .typeName hbase hbs (by simp [hl]) (.typeArgs_some hl hitems hr rfl hne')
  · rw [bare, bare, hbare]

/-! ### Elements, keys and values -/

theorem readsBack_pointer (helem : elem.ReadsBack) :
    (pointer elem).ReadsBack := by
  refine .of_plain (by simp) (by simp) ?_
  intro hplain hregular ts hts depth rest hlen hends
  rw [Written, Formed] at hplain
  rw [isRegular] at hregular
  rw [Spelled] at hts
  obtain ⟨star, es, rfl, hstar, hes⟩ := Form.exists_of_one_seq hts
  obtain ⟨elem', hparses, hbare⟩ := helem .plain hplain hregular es hes depth rest
    (by simpa using hlen) hends (by simp)
  refine ⟨.pointer elem', ?_, by rw [bare, bare, hbare]⟩
  exact .peek_next hstar rfl (hparses.bind .pure)

theorem readsBack_slice (helem : elem.ReadsBack) :
    (slice elem).ReadsBack := by
  refine .of_plain (by simp) (by simp) ?_
  intro hplain hregular ts hts depth rest hlen hends
  rw [Written, Formed] at hplain
  rw [isRegular] at hregular
  rw [Spelled] at hts
  obtain ⟨_, es, hwithin, hes, rfl⟩ := hts
  obtain ⟨l, _, r, rfl, hl, hr, rfl⟩ := Form.exists_of_within hwithin
  obtain ⟨elem', hparses, hbare⟩ := helem .plain hplain hregular es hes depth rest
    (by simp at hlen; omega) hends (by simp)
  refine ⟨.slice elem', ?_, by rw [bare, bare, hbare]⟩
  exact .peek_next hl rfl ((Parses.eat_true hr).bind (hparses.bind .pure))

theorem readsBack_paren (helem : elem.ReadsBack) :
    (paren elem).ReadsBack := by
  refine .of_plain (by simp) (by simp) ?_
  intro hplain hregular ts hts depth rest hlen hends
  rw [Written, Formed] at hplain
  rw [isRegular] at hregular
  rw [Spelled] at hts
  obtain ⟨l, es, r, rfl, hl, hr, hes⟩ := Form.exists_of_within hts
  obtain ⟨elem', hparses, hbare⟩ := helem .plain hplain hregular es hes depth (r :: rest)
    (by simp at hlen; omega) (.cons (by rw [hr]; rfl)) (by simp)
  refine ⟨.paren elem', ?_, by rw [bare, bare, hbare]⟩
  have hlist : l :: (es ++ [r]) ++ rest = l :: (es ++ r :: rest) := by simp
  rw [hlist]
  exact .peek_next hl rfl (hparses.bind ((Parses.expect hr).bind .pure))

end TypeExpr

/-! ### Arrays -/

/-- A length is taken up to the closing bracket behind it. -/
theorem Parser.lengthTokens_of_spansLength {depth : Nat}
    (hspans : spansLength depth (ts.map (·.kind)) = true) (hclose : close.kind = .rBrack) :
    lengthTokens depth (ts ++ close :: rest) = .ok (ts, close :: rest) := by
  induction ts generalizing depth with
  | nil =>
    rw [nil_append, lengthTokens_cons]
    exact if_pos ⟨hclose, beq_iff_eq.1 hspans⟩
  | cons t ts ih =>
    obtain ⟨hinner, hsemi, hrest⟩ := spansLength_cons.1 hspans
    rw [cons_append, lengthTokens_cons, if_neg hinner, if_neg hsemi, ih hrest]
    rfl

theorem Parses.arrayLength
    (hspans : spansLength 0 (ts.map (·.kind)) = true) (hclose : close.kind = .rBrack) :
    Parses Parser.arrayLength (ts ++ close :: rest) rest (Parser.writtenText ts) := by
  intro behind
  refine ⟨close.stop, ?_⟩
  have hlen : Parser.lengthTokens 0 (ts ++ close :: rest) = .ok (ts, close :: rest) :=
    Parser.lengthTokens_of_spansLength hspans hclose
  have hexpect : Parser.expect .rBrack
      ⟨close :: rest, (ts.getLast?.map Token.stop).getD behind⟩ = .ok (close, ⟨rest, close.stop⟩) :=
    if_pos hclose
  simp only [Parser.arrayLength, Bind.bind, StateT.bind, Except.bind, Pure.pure, StateT.pure,
    Except.pure, get, getThe, MonadStateOf.get, StateT.get, set, StateT.set, hlen]
  rw [hexpect]

namespace TypeExpr

open Stubwright.Parser

theorem readsBack_array {len : String} {elem : TypeExpr} (helem : elem.ReadsBack) :
    (array len elem).ReadsBack := by
  refine .of_plain (by simp) (by simp) ?_
  intro hplain hregular ts hts depth rest hlen hends
  rw [Written, Formed] at hplain
  obtain ⟨⟨hne, hspans, -⟩, hplain⟩ := hplain
  rw [isRegular] at hregular
  rw [Spelled] at hts
  obtain ⟨_, es, hwithin, hes, rfl⟩ := hts
  obtain ⟨l, vs, r, rfl, hl, hr, hkinds, hwritten⟩ := Form.exists_of_within hwithin
  rw [← hkinds] at hne hspans
  obtain ⟨elem', hparses, hbare⟩ := helem .plain hplain hregular es hes depth rest
    (by simp at hlen; omega) hends (by simp)
  refine ⟨.array len elem', ?_, by rw [bare, bare, hbare]⟩
  have hlist : l :: (vs ++ [r]) ++ es ++ rest = l :: (vs ++ r :: (es ++ rest)) := by simp
  have hfirst : (vs ++ r :: (es ++ rest)).head?.map (·.kind) ≠ some .rBrack := by
    cases vs with
    | nil => exact absurd rfl hne
    | cons v vs =>
      exact fun heq => (spansLength_cons.1 hspans).1 ⟨Option.some.inj heq, rfl⟩
  have hlength : Parses arrayLength (vs ++ r :: (es ++ rest)) (es ++ rest) len := by
    rw [← hwritten]
    exact .arrayLength hspans hr
  rw [hlist]
  exact .peek_next hl rfl ((Parses.eat_false hfirst).bind (hlength.bind
    (hparses.bind .pure)))

theorem readsBack_map {key value : TypeExpr} (hkey : key.ReadsBack) (hvalue : value.ReadsBack) :
    (map key value).ReadsBack := by
  refine .of_plain (by simp) (by simp) ?_
  intro hplain hregular ts hts depth rest hlen hends
  rw [Written, Formed] at hplain
  rw [isRegular, Bool.and_eq_true] at hregular
  rw [Spelled] at hts
  obtain ⟨kw, _, rfl, hkw, _, vs, hwithin, hvs, rfl⟩ := Form.exists_of_one_seq hts
  obtain ⟨l, ks, r, rfl, hl, hr, hks⟩ := Form.exists_of_within hwithin
  simp only [length_append, length_cons] at hlen
  obtain ⟨key', hparses, hbare⟩ := hkey .plain hplain.1 hregular.1 ks hks depth
    (r :: (vs ++ rest)) (by omega) (.cons (by rw [hr]; rfl)) (by simp)
  obtain ⟨value', hparses', hbare'⟩ := hvalue .plain hplain.2 hregular.2 vs hvs depth rest
    (by omega) hends (by simp)
  refine ⟨.map key' value', ?_, by rw [bare, bare, hbare, hbare']⟩
  have hlist : kw :: (l :: (ks ++ [r]) ++ vs) ++ rest
      = kw :: l :: (ks ++ r :: (vs ++ rest)) := by simp
  rw [hlist]
  exact .peek_next hkw rfl ((Parses.expect hl).bind (hparses.bind ((Parses.expect hr).bind
    (hparses'.bind .pure))))

end TypeExpr

namespace TypeExpr

variable {ts : List Token} {elem : TypeExpr}

open Stubwright.Parser

/-! ### Channels -/

/-- Parentheses around the element of a channel do not change it. -/
theorem readsBack_chanElem {dir : ChanDir} (helem : elem.ReadsBack)
    (hplain : elem.Written .plain) (hregular : elem.isRegular = true)
    (hts : (if elem.needsParens dir then Form.within .lParen .rParen elem.Spelled
      else elem.Spelled) ts) {depth : Nat} (hlen : ts.length ≤ depth) {rest : List Token}
    (hends : EndsType rest) :
    ∃ elem', Parses (typeWithin depth) (ts ++ rest) rest elem' ∧ elem'.bare = elem.bare := by
  split at hts
  · have hparen : (paren elem).Spelled ts := by
      rw [Spelled]
      exact hts
    obtain ⟨elem', hparses, hbare⟩ := readsBack_paren helem .plain
      (by rwa [Written, Formed]) (by rwa [isRegular]) ts hparen depth
      rest hlen hends (by simp)
    exact ⟨elem', hparses, by rw [hbare, bare]⟩
  · exact helem .plain hplain hregular ts hts depth rest hlen hends (by simp)

/-- An element that starts with an arrow stands in parentheses behind the keyword alone. -/
theorem needsParens_of_firstKind {t : TypeExpr} (h : t.firstKind = .arrow) :
    t.needsParens .both = true := by
  cases t with
  | chan dir elem =>
    cases dir with
    | recv => rfl
    | both => cases h
    | send => cases h
  | _ => cases h

theorem readsBack_chan {dir : ChanDir} (helem : elem.ReadsBack) :
    (chan dir elem).ReadsBack := by
  refine .of_plain nofun nofun ?_
  intro hplain hregular ts hts depth rest hlen hends
  rw [Written, Formed] at hplain
  rw [isRegular] at hregular
  rw [Spelled] at hts
  obtain ⟨ds, es, hds, hes, rfl⟩ := hts
  have hread : es.length ≤ depth → ∃ elem', Parses (typeWithin depth) (es ++ rest) rest elem' ∧
      elem'.bare = elem.bare :=
    fun hlen => readsBack_chanElem helem hplain hregular hes hlen hends
  cases dir with
  | both =>
    obtain ⟨kw, rfl, hkw⟩ := hds
    obtain ⟨elem', hparses, hbare⟩ := hread (by simpa using hlen)
    refine ⟨.chan .both elem', ?_, by rw [bare, bare, hbare]⟩
    have hfirst : (es ++ rest).head?.map (·.kind) ≠ some .arrow := by
      split at hes
      · obtain ⟨l, us, rfl, hl⟩ := Form.startsWith_one.seq es hes
        simp [hl]
      · rename_i hparens
        obtain ⟨tok, us, rfl, hkind, -⟩ := exists_first hplain hes
        intro heq
        exact hparens (needsParens_of_firstKind (hkind.symm.trans (Option.some.inj heq)))
    rw [append_assoc]
    exact .peek_next hkw rfl ((Parses.eat_false hfirst).bind (hparses.bind .pure))
  | send =>
    obtain ⟨kw, _, rfl, hkw, arrow, rfl, harrow⟩ := Form.exists_of_one_seq hds
    obtain ⟨elem', hparses, hbare⟩ := hread (by simp at hlen; omega)
    refine ⟨.chan .send elem', ?_, by rw [bare, bare, hbare]⟩
    rw [append_assoc]
    exact .peek_next hkw rfl ((Parses.eat_true harrow).bind (hparses.bind .pure))
  | recv =>
    obtain ⟨arrow, _, rfl, harrow, kw, rfl, hkw⟩ := Form.exists_of_one_seq hds
    obtain ⟨elem', hparses, hbare⟩ := hread (by simp at hlen; omega)
    refine ⟨.chan .recv elem', ?_, by rw [bare, bare, hbare]⟩
    rw [append_assoc]
    exact .peek_next harrow rfl ((Parses.expect hkw).bind (hparses.bind .pure))

/-! ### Variadic parameters and unions -/

theorem readsBack_ellipsis (helem : elem.ReadsBack) :
    (ellipsis elem).ReadsBack := by
  intro place hform hregular ts hts depth rest hlen hends _
  rw [Written, Formed] at hform
  obtain ⟨rfl, hplain⟩ := hform
  rw [isRegular] at hregular
  rw [Spelled] at hts
  obtain ⟨dots, es, rfl, hdots, hes⟩ := Form.exists_of_one_seq hts
  obtain ⟨elem', hparses, hbare⟩ := helem .plain hplain hregular es hes depth rest
    (by simp at hlen; omega) hends (by simp)
  refine ⟨.ellipsis elem', ?_, by rw [bare, bare, hbare]⟩
  exact (Parses.eat_true hdots).bind (hparses.bind .pure)

theorem parses_unionTerm {t : Term} (htype : t.type.ReadsBack) (hform : t.Formed identified)
    (hregular : t.isRegular = true) (hts : t.Spelled ts) {depth : Nat}
    (hlen : ts.length ≤ depth) {us : List Token} (hends : EndsType us) :
    ∃ t' : Term, t'.bare = t.bare ∧
      (∀ bar vs acc, us = bar :: vs → bar.kind = .pipe →
        Parses (unionTerm (typeWithin depth) acc) (ts ++ us) vs (.inl (acc ++ [t']))) ∧
      ∀ acc, us.head?.map (·.kind) ≠ some .pipe →
        Parses (unionTerm (typeWithin depth) acc) (ts ++ us) us (.inr (acc ++ [t'])) := by
  obtain ⟨tilde, type⟩ := t
  rw [Term.Formed] at hform
  rw [Term.isRegular] at hregular
  rw [Term.Spelled] at hts
  obtain ⟨ms, es, hms, hes, rfl⟩ := hts
  rw [length_append] at hlen
  obtain ⟨type', hparses, hbare⟩ := htype .plain hform hregular es hes depth us (by omega) hends (by simp)
  have htilde : Parses (eat .tilde) (ms ++ es ++ us) (es ++ us) tilde := by
    cases tilde with
    | true =>
      obtain ⟨mark, rfl, hmark⟩ := hms
      exact .eat_true hmark
    | false =>
      obtain rfl : ms = [] := hms
      exact .eat_false (head_ne hform hes us rfl)
  refine ⟨⟨tilde, type'⟩, by rw [Term.bare, Term.bare, hbare], ?_, ?_⟩
  · rintro bar vs acc rfl hbar
    exact htilde.bind (hparses.bind ((Parses.eat_true hbar).bind .pure))
  · intro acc hus
    exact htilde.bind (hparses.bind ((Parses.eat_false hus).bind .pure))

theorem parses_unionTerms {terms : List Term} (hne : terms ≠ [])
    (hterms : ∀ t ∈ terms, t.type.ReadsBack) (hform : ∀ t ∈ terms, t.Formed identified)
    (hregular : ∀ t ∈ terms, t.isRegular = true)
    (h : Form.separated .pipe (terms.map fun t => t.Spelled) ts) {depth n : Nat}
    (hlen : ts.length ≤ depth) (hn : ts.length < n) {rest : List Token} (hends : EndsType rest)
    (hpipe : rest.head?.map (·.kind) ≠ some .pipe) (acc : List Term) :
    ∃ terms', Parses (rounds (unionTerm (typeWithin depth)) n acc) (ts ++ rest) rest
      (acc ++ terms') ∧ terms'.map (fun t => t.bare) = terms.map fun t => t.bare := by
  induction terms generalizing ts n acc with
  | nil => exact absurd rfl hne
  | cons t terms ih =>
    obtain ⟨as, bs, ht, rfl, hbs⟩ := Form.exists_of_separated_cons h
    obtain ⟨m, rfl⟩ : ∃ m, n = m + 1 := ⟨n - 1, by omega⟩
    rw [length_append] at hlen hn
    have hfirst : ∀ {us}, EndsType us → _ := fun hus =>
      parses_unionTerm (hterms t mem_cons_self) (hform t mem_cons_self)
        (hregular t mem_cons_self) ht (show as.length ≤ depth by omega) hus
    rw [append_assoc]
    rcases hbs with ⟨hnil, rfl⟩ | ⟨hmore, bar, cs, rfl, hbar, hcs⟩
    · obtain rfl := map_eq_nil_iff.1 hnil
      obtain ⟨t', hbare, -, hlast⟩ := hfirst hends
      exact ⟨[t'], .rounds_inr (hlast acc hpipe), by rw [map_cons, hbare]; rfl⟩
    · rw [length_cons] at hlen hn
      obtain ⟨t', hbare, hbar', -⟩ := @hfirst (bar :: cs ++ rest) (.cons (by rw [hbar]; rfl))
      obtain ⟨terms', hparses, hbares⟩ := ih (fun h => hmore (by rw [h]; rfl))
        (fun t ht => hterms t (mem_cons_of_mem _ ht))
        (fun t ht => hform t (mem_cons_of_mem _ ht))
        (fun t ht => hregular t (mem_cons_of_mem _ ht)) hcs (by omega) (show cs.length < m by omega)
        (acc ++ [t'])
      refine ⟨t' :: terms', ?_, by rw [map_cons, map_cons, hbare, hbares]⟩
      rw [append_assoc, singleton_append] at hparses
      exact .rounds_inl (hbar' bar _ acc rfl hbar) hparses

theorem readsBack_union {terms : List Term} (hterms : ∀ t ∈ terms, t.type.ReadsBack) :
    (union terms).ReadsBack := by
  intro place hform hregular ts hts depth rest hlen hends hpipe
  rw [Written, Formed] at hform
  obtain ⟨rfl, hne, hsingle, hform⟩ := hform
  rw [isRegular] at hregular
  rw [Spelled] at hts
  obtain ⟨terms', hparses, hbare⟩ := parses_unionTerms hne hterms hform (by simpa using hregular)
    hts hlen (show ts.length < (ts ++ rest).length + 1 by rw [length_append]; omega) hends (hpipe rfl) []
  have hunion : ofTerms terms' = .union terms' := by
    unfold ofTerms
    split
    · rename_i t
      obtain ⟨⟨tilde, u⟩, rfl, hterm⟩ := map_eq_singleton_iff.1 hbare.symm
      simp only [Term.bare, Term.mk.injEq] at hterm
      exact absurd (by rw [hterm.1]) (hsingle u)
    · rfl
  refine ⟨.union terms', ?_, by rw [bare, bare, hbare]⟩
  rw [Place.parser, constraint_eq, ← hunion]
  exact (Parses.loop hparses).bind .pure

end TypeExpr

end Stubwright
