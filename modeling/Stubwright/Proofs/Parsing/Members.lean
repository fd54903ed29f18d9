import Stubwright.Proofs.Parsing.Signature

/-!
# Reading printed interfaces and structs back

The members of an interface or a struct are printed one on each line and end with the line.

* `TypeExpr.readsBackWithin`: every type that prints unambiguously is read back.
-/

namespace Stubwright

open List

open TypeExpr hiding name

/-! ## Members in braces -/

namespace Parser

/-- A member in braces and the semicolon behind it, or an empty statement. -/
def member {α : Type} (item : Parser α) : Parser (Option α × Bool) := do
  if ← eat .semi then return (none, true)
  let a ← item
  endOrClose .rBrace
  return (some a, true)

theorem braced_eq {α : Type} (item : Parser α) :
    braced item = (do
      let _ ← expect .lBrace
      let items ← itemsUntil .rBrace (member item)
      let _ ← expect .rBrace
      return items.filterMap id) :=
  rfl

end Parser

/-- A member is read back before a semicolon.  `bare` is what is kept of it. -/
def ReadsMember {α : Type} (item : Parser α) (bare : α → α) (ts : List Token) (a : α) : Prop :=
  (∃ tok us, ts = tok :: us ∧ tok.kind ≠ .semi ∧ tok.kind ≠ .rBrace) ∧
    ∀ semi rest, semi.kind = .semi →
      ∃ a', Parses item (ts ++ semi :: rest) (semi :: rest) a' ∧ bare a' = bare a

section Members

open Stubwright.Parser

variable {α : Type} {item : Parser α} {bare : α → α} {form : α → Form} {depth : Nat} {xs : List α}
  {ts : List Token}

theorem items_members (hitem : ∀ x ∈ xs, ∀ ts, form x ts → ts.length ≤ depth →
      ReadsMember item bare ts x) (h : Form.ended (xs.map form) ts) (hlen : ts.length ≤ depth)
    {close : Token} (hclose : close.kind = .rBrace) (rest : List Token) :
    ∃ xs' : List α, Items .rBrace (member item) (ts ++ close :: rest) (close :: rest)
      (xs'.map some) ∧ xs'.map bare = xs.map bare := by
  induction xs generalizing ts with
  | nil =>
    obtain rfl : ts = [] := h
    exact ⟨[], .stop (congrArg some hclose), rfl⟩
  | cons x xs ih =>
    obtain ⟨as, _, hx, hrest, rfl⟩ := h
    obtain ⟨semi, bs, rfl, hsemi, hbs⟩ := Form.exists_of_one_seq hrest
    rw [length_append, length_cons] at hlen
    obtain ⟨xs', hitems, hbare⟩ :=
      ih (fun y hy => hitem y (mem_cons_of_mem _ hy)) hbs (by omega)
    obtain ⟨⟨tok, us, rfl, hnoSemi, hnoBrace⟩, hreads⟩ :=
      hitem x mem_cons_self as hx (by omega)
    obtain ⟨x', hparses, hx'⟩ := hreads semi (bs ++ close :: rest) hsemi
    refine ⟨x' :: xs', ?_, by rw [map_cons, map_cons, hx', hbare]⟩
    rw [append_assoc, cons_append]
    have hhead : ∀ {kind : TokenKind}, tok.kind ≠ kind →
        (tok :: us ++ semi :: (bs ++ close :: rest)).head?.map (·.kind) ≠ some kind :=
      fun hne heq => hne (Option.some.inj heq)
    have hend : Parses (endOrClose .rBrace) (semi :: (bs ++ close :: rest)) (bs ++ close :: rest)
        () :=
      (Parses.eat_true hsemi).bind .pure
    refine .more (hhead hnoBrace) ?_ ?_ hitems
    · exact (Parses.eat_false (hhead hnoSemi)).bind (hparses.bind (hend.bind .pure))
    · simp only [length_cons, length_append]
      omega

/-- Members in braces are read back. -/
theorem parses_braced (hitem : ∀ x ∈ xs, ∀ ts, form x ts → ts.length ≤ depth →
      ReadsMember item bare ts x)
    (h : Form.within .lBrace .rBrace (Form.ended (xs.map form)) ts) (hlen : ts.length ≤ depth)
    (rest : List Token) :
    ∃ xs', Parses (braced item) (ts ++ rest) rest xs' ∧ xs'.map bare = xs.map bare := by
  obtain ⟨l, us, r, rfl, hl, hr, hus⟩ := Form.exists_of_within h
  rw [length_cons, length_append] at hlen
  obtain ⟨xs', hitems, hbare⟩ := items_members hitem hus (by omega) hr rest
  refine ⟨xs', ?_, hbare⟩
  have hlist : l :: (us ++ [r]) ++ rest = l :: (us ++ r :: rest) := by simp
  have hmembers : (xs'.map some).filterMap id = xs' := by simp
  rw [hlist, braced_eq]
  refine (Parses.expect hl).bind (hitems.parses.bind ((Parses.expect hr).bind ?_))
  rw [hmembers]
  exact .pure

end Members

/-! ## Interfaces -/

namespace TypeExpr

/-- Whether a list of tokens begins like a method: with a name and an opening parenthesis. -/
def startsMethod (ts : List Token) : Bool :=
  ts.head?.map (·.kind) == some .ident && ts[1]?.map (·.kind) == some .lParen

theorem startsMethod_eq_false {t : TypeExpr} (hplain : t.Written .plain) {ts : List Token}
    (hts : t.Spelled ts) {rest : List Token} (hends : EndsType rest) :
    startsMethod (ts ++ rest) = false := by
  rw [startsMethod, Bool.and_eq_false_imp]
  intro hident
  obtain ⟨first, us, rfl, hkind, -⟩ := exists_first hplain hts
  have hfirst : t.firstKind = .ident := by
    rw [← hkind]
    simpa using hident
  rcases second_of_firstKind hplain hfirst hts with ⟨tok, -, hone, -⟩ |
    ⟨-, tok, second, us', htwo, -, hsecond⟩
  · rw [hone, singleton_append, getElem?_cons_succ, ← head?_eq_getElem?]
    simpa using hends.head_ne rfl
  · rw [htwo]
    rcases hsecond with hsecond | hsecond <;> simp [hsecond]

/-- An element of an interface that is a type begins like none that is a method. -/
theorem opens_embed {t : TypeExpr} (hform : t.Written .embed) {ts : List Token}
    (hts : t.Spelled ts) {rest : List Token} (hends : EndsType rest) :
    (∃ tok us, ts = tok :: us ∧ (tok.kind = .tilde ∨ tok.kind.startsType = true)) ∧
      startsMethod (ts ++ rest) = false := by
  by_cases hunion : ∃ terms, t = .union terms
  · obtain ⟨terms, rfl⟩ := hunion
    rw [Written, Formed] at hform
    obtain ⟨-, hne, -, hterms⟩ := hform
    obtain ⟨⟨tilde, type⟩, terms, rfl⟩ := exists_cons_of_ne_nil hne
    rw [Spelled] at hts
    obtain ⟨as, bs, has, rfl, hbs⟩ := Form.exists_of_separated_cons hts
    have hplain := hterms _ mem_cons_self
    rw [Term.Formed] at hplain
    rw [Term.Spelled] at has
    have hendsTerm : EndsType (bs ++ rest) := by
      rcases hbs with ⟨-, rfl⟩ | ⟨-, bar, cs, rfl, hbar, -⟩
      · exact hends
      · exact .cons (by rw [hbar]; rfl)
    rw [append_assoc]
    cases tilde with
    | true =>
      obtain ⟨tok, us, rfl, hkind, -⟩ := Form.exists_of_one_seq has
      exact ⟨⟨tok, us ++ bs, rfl, .inl hkind⟩, by simp [startsMethod, hkind]⟩
    | false =>
      obtain ⟨_, us, rfl, hus, rfl⟩ := has
      obtain ⟨tok, us', rfl, -, hstarts⟩ := exists_first hplain hus
      exact ⟨⟨tok, us' ++ bs, rfl, .inr hstarts⟩, startsMethod_eq_false hplain hus hendsTerm⟩
  · have hplain := hform.plain
      (fun e heq => by rw [heq, Written, Formed] at hform; cases hform.1)
      (fun terms heq => hunion ⟨terms, heq⟩)
    obtain ⟨tok, us, rfl, -, hstarts⟩ := exists_first hplain hts
    exact ⟨⟨tok, us, rfl, .inr hstarts⟩, startsMethod_eq_false hplain hts hends⟩

end TypeExpr

theorem Signature.startsWith_lParen (sig : Signature) : sig.Spelled.StartsWith .lParen := by
  obtain ⟨ps, rs⟩ := sig
  unfold Signature.Spelled
  split
  · exact Form.startsWith_one.seq
  · exact Form.startsWith_one.seq.seq
  · exact Form.startsWith_one.seq.seq

/-- An element of an interface is read back. -/
theorem Element.readsMember {e : Element} (h : e.Each ReadsBackWithin)
    (hform : e.Formed identified) (hregular : e.isRegular = true) {ts : List Token}
    (hts : e.Spelled ts) {depth : Nat} (hlen : ts.length ≤ depth) :
    ReadsMember (Parser.element (Parser.typeWithin depth)) Element.bare ts e := by
  cases e with
  | method name sig =>
    rw [Element.Formed] at hform
    rw [Element.isRegular] at hregular
    rw [Element.Spelled] at hts
    obtain ⟨tok, us, rfl, hkind, rfl, hus⟩ := Form.exists_of_word_seq hts
    refine ⟨⟨tok, us, rfl, by rw [hkind]; decide, by rw [hkind]; decide⟩, ?_⟩
    intro semi rest hsemi
    have hends : EndsType (semi :: rest) := .cons (by rw [hsemi]; rfl)
    obtain ⟨sig', hparses, hbare⟩ := Signature.parses h hform.2 hregular hus
      (Nat.le_of_succ_le hlen) hends
    refine ⟨.method tok.text sig', Parses.isAt.bind (Parses.peekAt.bind ?_), ?_⟩
    · obtain ⟨l, vs, rfl, hl⟩ := sig.startsWith_lParen us hus
      rw [if_pos (by simp [hkind, hl])]
      exact (Parses.identifier hkind).bind (hparses.bind .pure)
    · rw [Element.bare, Element.bare, hbare]
  | embed type =>
    rw [Element.Formed] at hform
    rw [Element.isRegular] at hregular
    rw [Element.Spelled] at hts
    refine ⟨?_, ?_⟩
    · obtain ⟨⟨tok, us, rfl, hkind⟩, -⟩ :=
        opens_embed hform hts (show EndsType [] by simp [EndsType])
      refine ⟨tok, us, rfl, ?_, ?_⟩
      · intro heq
        rw [heq] at hkind
        rcases hkind with hkind | hkind <;> cases hkind
      · intro heq
        rw [heq] at hkind
        rcases hkind with hkind | hkind <;> cases hkind
    intro semi rest hsemi
    have hends : EndsType (semi :: rest) := .cons (by rw [hsemi]; rfl)
    obtain ⟨type', hparses, hbare⟩ := h.1 .embed hform hregular ts hts depth (semi :: rest) hlen
      hends fun _ => by simp [hsemi]
    refine ⟨.embed type', Parses.isAt.bind (Parses.peekAt.bind ?_), ?_⟩
    · have hmethod := (opens_embed hform hts hends).2
      rw [startsMethod] at hmethod
      rw [hmethod, if_neg Bool.false_ne_true]
      exact hparses.bind .pure
    · rw [Element.bare, Element.bare, hbare]

theorem readsBack_interface {elems : List Element}
    (h : ∀ e ∈ elems, e.Each ReadsBackWithin) :
    (interface elems).ReadsBack := by
  refine .of_plain nofun nofun ?_
  intro hplain hregular ts hts depth rest hlen hends
  rw [Written, Formed] at hplain
  rw [isRegular, all_map, all_eq_true] at hregular
  rw [Spelled] at hts
  obtain ⟨tok, us, rfl, hkind, hus⟩ := Form.exists_of_one_seq hts
  obtain ⟨elems', hparses, hbare⟩ := parses_braced
    (fun e he ts hts hlen => Element.readsMember (h e he) (hplain e he) (hregular e he) hts hlen) hus
    (Nat.le_of_succ_le_succ hlen) rest
  refine ⟨.interface elems', ?_, by rw [bare, bare]; exact congrArg _ hbare⟩
  exact .peek_next hkind rfl (hparses.bind .pure)

/-! ## Structs -/

namespace Parser

/-- A group of fields that starts with a name, given the kind of the second token. -/
def fieldBy (type : Parser TypeExpr) (second : Option TokenKind) :
    Parser (List String × TypeExpr) := do
  if second == some .comma then
    let first ← identifier
    let names ← loop fieldName [first]
    return (names, ← type)
  else if second == some .dot || endsField second then return ([], ← type)
  else if second == some .lBrack then
    match ← attempt? type fun _ s => endsField (s.rest.head?.map (·.kind)) with
    | some t => return ([], t)
    | none => return ([← identifier], ← type)
  else return ([← identifier], ← type)

theorem fieldType_eq (type : Parser TypeExpr) :
    fieldType type = (do
      if ← isAt .star then return ([], ← type)
      if !(← isAt .ident) then failHere (.expected .fieldOrEmbedded)
      fieldBy type (← peekAt 1)) :=
  rfl

end Parser

theorem endsField_of_startsType {kind : TokenKind} :
    kind.startsType = true → Parser.endsField (some kind) = false := by
  cases kind <;> decide

theorem Form.behind_field {tag : Option String} {gs : List Token} (h : Form.tag tag gs)
    {semi : Token} (hsemi : semi.kind = .semi) (rest : List Token) :
    Parser.endsField ((gs ++ semi :: rest).head?.map (·.kind)) = true ∧
      EndsType (gs ++ semi :: rest) := by
  cases tag with
  | none =>
    obtain rfl := h
    refine ⟨?_, .cons (by rw [hsemi]; rfl)⟩
    rw [nil_append, head?_cons, Option.map_some, hsemi]
    rfl
  | some text =>
    obtain ⟨tok, rfl, htag, -⟩ := h
    refine ⟨?_, .cons ?_⟩
    · rw [singleton_append, head?_cons, Option.map_some, Parser.endsField, htag,
        Bool.or_true]
    · rw [Parser.isTag, Bool.or_eq_true, beq_iff_eq, beq_iff_eq, Option.some.injEq,
        Option.some.injEq] at htag
      rcases htag with htag | htag <;> rw [htag] <;> rfl

namespace Parses

open Stubwright.Parser

variable {type : Parser TypeExpr} {tok : Token} {ts rest : List Token}

theorem fieldType_star {t : TypeExpr} (hkind : tok.kind = .star)
    (h : Parses type (tok :: ts) rest t) : Parses (fieldType type) (tok :: ts) rest ([], t) := by
  rw [fieldType_eq]
  refine isAt.bind ?_
  rw [if_pos (by simp [hkind])]
  exact h.bind pure

theorem fieldType_ident {a : List String × TypeExpr} (hkind : tok.kind = .ident)
    (h : Parses (fieldBy type (ts.head?.map (·.kind))) (tok :: ts) rest a) :
    Parses (fieldType type) (tok :: ts) rest a := by
  rw [fieldType_eq]
  refine isAt.bind ?_
  rw [if_neg (by simp [hkind])]
  refine isAt.bind ?_
  rw [if_neg (by simp [hkind])]
  refine peekAt.bind ?_
  rwa [getElem?_cons_succ, ← head?_eq_getElem?]

theorem fieldNames {names : List String} {bs vs : List Token}
    (hbs : (names.map Form.word = [] ∧ bs = []) ∨ names.map Form.word ≠ [] ∧
      ∃ comma cs, bs = comma :: cs ∧ comma.kind = .comma ∧ Form.words names cs)
    (hvs : vs.head?.map (·.kind) ≠ some .comma) {n : Nat} (hn : bs.length < n)
    (acc : List String) : Parses (rounds fieldName n acc) (bs ++ vs) vs (acc ++ names) := by
  induction names generalizing bs n acc with
  | nil =>
    obtain ⟨-, rfl⟩ := hbs.resolve_right fun h => h.1 rfl
    obtain ⟨m, rfl⟩ : ∃ m, n = m + 1 := ⟨n - 1, by omega⟩
    rw [append_nil]
    exact rounds_inr ((eat_false hvs).bind pure)
  | cons name names ih =>
    obtain ⟨-, comma, _, rfl, hcomma, hcs⟩ := hbs.resolve_left nofun
    obtain ⟨_, ds, ⟨tok, rfl, hkind, rfl⟩, rfl, hds⟩ := Form.exists_of_separated_cons hcs
    obtain ⟨m, rfl⟩ : ∃ m, n = m + 1 := ⟨n - 1, by omega⟩
    have hnext := ih hds (n := m) (by simp at hn; omega) (acc ++ [tok.text])
    rw [append_assoc] at hnext
    exact rounds_inl ((eat_true hcomma).bind ((identifier hkind).bind pure)) hnext

end Parses

namespace TypeExpr

open Stubwright.Parser

variable {t : TypeExpr} {ts us : List Token} {depth : Nat}

theorem ReadsBack.parses_embedded (h : t.ReadsBack) (hembeddable : t.isEmbeddable = true)
    (hplain : t.Written .plain) (hregular : t.isRegular = true) (hts : t.Spelled ts)
    (hlen : ts.length ≤ depth) (hends : EndsType us)
    (hus : endsField (us.head?.map (·.kind)) = true) :
    ∃ t', Parses (fieldType (typeWithin depth)) (ts ++ us) us ([], t') ∧ t'.bare = t.bare := by
  obtain ⟨t', hparses, hbare⟩ := h .plain hplain hregular ts hts depth us hlen hends nofun
  refine ⟨t', ?_, hbare⟩
  by_cases hfirst : t.firstKind = .ident
  · have hread : Parses (do return (([] : List String), ← typeWithin depth)) (ts ++ us) us
        ([], t') := hparses.bind .pure
    rcases second_of_firstKind hplain hfirst hts with ⟨tok, rfl, rfl, hkind⟩ |
      ⟨-, tok, second, us', rfl, hkind, hsecond⟩
    · rw [singleton_append] at hread ⊢
      refine .fieldType_ident hkind ?_
      rw [fieldBy, if_neg, if_pos (by simp [hus])]
      · exact hread
      · intro hcomma
        rw [beq_iff_eq.1 hcomma] at hus
        cases hus
    · rw [cons_append, cons_append] at hparses hread ⊢
      refine .fieldType_ident hkind ?_
      rw [head?_cons, Option.map_some]
      rcases hsecond with hsecond | hsecond
      · rw [hsecond, fieldBy, if_neg (by decide), if_pos (by decide)]
        exact hread
      · rw [hsecond, fieldBy, if_neg (by decide), if_neg (by decide), if_pos (by decide)]
        exact (Parses.attempt?_some hparses fun _ => hus).bind .pure
  · obtain ⟨tok, us', rfl, hkind, -⟩ := exists_first hplain hts
    cases t with
    | pointer elem => exact .fieldType_star hkind hparses
    | name n | qualified p n | generic base args => exact absurd rfl hfirst
    | _ => cases hembeddable

theorem ReadsBack.parses_fields (h : t.ReadsBack) {names : List String} (hne : names ≠ [])
    {ws : List Token} (hws : Form.words names ws) (hplain : t.Written .plain)
    (hregular : t.isRegular = true) (hnests : names.length ≠ 1 ∨ t.lengthNests = true)
    (hts : t.Spelled ts) (hlen : ts.length ≤ depth)
    (hends : EndsType us) :
    ∃ t', Parses (fieldType (typeWithin depth)) (ws ++ (ts ++ us)) us (names, t') ∧
      t'.bare = t.bare := by
  obtain ⟨t', hparses, hbare⟩ := h .plain hplain hregular ts hts depth us hlen hends nofun
  refine ⟨t', ?_, hbare⟩
  obtain ⟨name, names, rfl⟩ := exists_cons_of_ne_nil hne
  obtain ⟨_, bs, ⟨tok, rfl, hkind, rfl⟩, rfl, hbs⟩ := Form.exists_of_separated_cons hws
  rw [append_assoc, singleton_append]
  refine .fieldType_ident hkind ?_
  rcases hbs with ⟨hnil, rfl⟩ | ⟨hmore, comma, cs, rfl, hcomma, hcs⟩
  · obtain rfl := map_eq_nil_iff.1 hnil
    have hnamed : Parses (do return ([← identifier], ← typeWithin depth)) (tok :: (ts ++ us)) us
        ([tok.text], t') :=
      (Parses.identifier hkind).bind (hparses.bind .pure)
    obtain ⟨first, us', heq, hfirst, hstarts⟩ := exists_first hplain hts
    have hhead : (ts ++ us).head?.map (·.kind) = some t.firstKind := by
      rw [heq]
      exact congrArg some hfirst
    rw [hfirst] at hstarts
    have hno : ∀ kind : TokenKind, kind.startsType = false → t.firstKind ≠ kind := by
      rintro _ hno rfl
      rw [hno] at hstarts
      cases hstarts
    rw [nil_append, hhead, fieldBy, if_neg (by simpa using hno .comma rfl),
      if_neg (by simpa [endsField_of_startsType hstarts] using hno .dot rfl)]
    by_cases hbrack : t.firstKind = .lBrack
    · rw [if_pos (by simpa using hbrack)]
      refine (Parses.attempt?_none fun behind a s hok => ?_).bind hnamed
      obtain ⟨kind, hrest, hkind⟩ := rest_of_typeWithin hplain
        (hnests.resolve_left fun hne => hne rfl) hts hbrack hkind hok
      rw [hrest]
      exact endsField_of_startsType hkind
    · rw [if_neg (by simpa using hbrack)]
      exact hnamed
  · have hnames : Parses (loop fieldName [tok.text]) (comma :: cs ++ (ts ++ us)) (ts ++ us)
        (tok.text :: names) := by
      refine .loop ?_
      exact .fieldNames (.inr ⟨hmore, comma, cs, rfl, hcomma, hcs⟩)
        (head_ne hplain hts us rfl) (by rw [length_append]; omega) [tok.text]
    rw [cons_append] at hnames ⊢
    rw [head?_cons, Option.map_some, hcomma, fieldBy, if_pos (by decide)]
    exact (Parses.identifier hkind).bind (hnames.bind (hparses.bind .pure))

end TypeExpr

/-- A group of fields is read back. -/
theorem Field.readsMember {f : Field} (h : f.type.ReadsBack) (hform : f.Formed identified)
    (hregular : f.isRegular = true) {ts : List Token} (hts : f.Spelled ts) {depth : Nat}
    (hlen : ts.length ≤ depth) :
    ReadsMember (Parser.field (Parser.typeWithin depth)) Field.bare ts f := by
  obtain ⟨names, type, tag⟩ := f
  rw [Field.Formed] at hform
  obtain ⟨-, hembeddable, hplain, -⟩ := hform
  rw [Field.isRegular, Bool.and_eq_true, Bool.or_eq_true, bne_iff_ne] at hregular
  rw [Field.Spelled] at hts
  obtain ⟨ws, _, hws, ⟨es, gs, hes, hgs, rfl⟩, rfl⟩ := hts
  refine ⟨?_, ?_⟩
  · cases names with
    | nil =>
      obtain rfl := hws
      obtain ⟨tok, us, rfl, -, hstarts⟩ := exists_first hplain hes
      refine ⟨tok, us ++ gs, rfl, ?_, ?_⟩
      · rintro heq
        rw [heq] at hstarts
        cases hstarts
      · rintro heq
        rw [heq] at hstarts
        cases hstarts
    | cons name names =>
      obtain ⟨_, bs, ⟨tok, rfl, hkind, -⟩, rfl, -⟩ := Form.exists_of_separated_cons hws
      exact ⟨tok, bs ++ (es ++ gs), rfl, by rw [hkind]; decide, by rw [hkind]; decide⟩
  intro semi rest hsemi
  rw [length_append, length_append] at hlen
  have hus := Form.behind_field hgs hsemi rest
  obtain ⟨type', hparses, hbare⟩ : ∃ type', Parses (Parser.fieldType (Parser.typeWithin depth))
      (ws ++ (es ++ (gs ++ semi :: rest))) (gs ++ semi :: rest) (names, type') ∧
      type'.bare = type.bare := by
    by_cases hne : names = []
    · subst hne
      obtain rfl := hws
      exact h.parses_embedded (hembeddable rfl) hplain hregular.1 hes (by omega) hus.2 hus.1
    · exact h.parses_fields hne hws hplain hregular.1 hregular.2 hes (by omega) hus.2
  rw [append_assoc, append_assoc]
  refine ⟨⟨names, type', tag⟩, hparses.bind (Parses.peek.bind ?_), by rw [Field.bare, Field.bare, hbare]⟩
  cases tag with
  | none =>
    obtain rfl := hgs
    rw [nil_append, head?_cons, Option.map_some, hsemi, if_neg (by decide)]
    exact Parses.pure
  | some text =>
    obtain ⟨tok, rfl, htag, rfl⟩ := hgs
    rw [singleton_append, head?_cons, Option.map_some, if_pos htag]
    exact Parses.next?.bind Parses.pure

theorem readsBack_struct {fields : List Field}
    (h : ∀ f ∈ fields, f.type.ReadsBack) : (struct fields).ReadsBack := by
  refine .of_plain nofun nofun ?_
  intro hplain hregular ts hts depth rest hlen hends
  rw [Written, Formed] at hplain
  rw [isRegular, all_map, all_eq_true] at hregular
  rw [Spelled] at hts
  obtain ⟨tok, us, rfl, hkind, hus⟩ := Form.exists_of_one_seq hts
  obtain ⟨fields', hparses, hbare⟩ := parses_braced
    (fun f hf ts hts hlen => Field.readsMember (h f hf) (hplain f hf) (hregular f hf) hts hlen) hus
    (Nat.le_of_succ_le_succ hlen) rest
  refine ⟨.struct fields', ?_, ?_⟩
  · exact .peek_next hkind rfl (hparses.bind .pure)
  · rw [bare, bare]
    exact congrArg _ hbare

/-! ## All types -/

/-- Every type that can be written down is read back from its tokens, if it prints
unambiguously. -/
theorem TypeExpr.readsBackWithin (t : TypeExpr) : t.ReadsBackWithin := by
  induction t using partsInduction with
  | name n | qualified p n => exact ⟨readsBack_of_isReference rfl, nofun⟩
  | generic base args _ hargs => exact ⟨readsBack_generic fun a ha => (hargs a ha).1, nofun⟩
  | pointer elem ih => exact ⟨readsBack_pointer ih.1, nofun⟩
  | slice elem ih => exact ⟨readsBack_slice ih.1, nofun⟩
  | array len elem ih => exact ⟨readsBack_array ih.1, nofun⟩
  | map key value hkey hvalue => exact ⟨readsBack_map hkey.1 hvalue.1, nofun⟩
  | chan dir elem ih => exact ⟨readsBack_chan ih.1, nofun⟩
  | func sig ih => exact ⟨readsBack_func ih, nofun⟩
  | interface elems ih => exact ⟨readsBack_interface ih, nofun⟩
  | struct fields ih => exact ⟨readsBack_struct fun f hf => (ih f hf).1, nofun⟩
  | paren elem ih =>
    refine ⟨readsBack_paren ih.1, ?_⟩
    rintro _ ⟨⟩
    exact ih.1
  | ellipsis elem ih => exact ⟨readsBack_ellipsis ih.1, nofun⟩
  | union terms ih => exact ⟨readsBack_union fun u hu => (ih u hu).1, nofun⟩

end Stubwright
