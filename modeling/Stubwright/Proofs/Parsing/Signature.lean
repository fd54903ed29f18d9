import Stubwright.Proofs.Parsing

/-!
# Reading printed signatures back

A name at the start of a parameter may be its name or its type, and before a bracket the reader
tries a type first and looks at what it leaves.

* `readsBack_func`: a function type is read back if the types in it are.
-/

namespace Stubwright

open List

open TypeExpr hiding name

variable {depth : Nat} {t : TypeExpr} {ts us : List Token} {names : List String} {sig : Signature}
  {place : Place}

/-! ## Names before brackets -/

namespace Parser

/-- A name before brackets is read as an instantiated type only up to the end of the brackets, if
what they hold nests. -/
theorem rest_of_typeWithin {behind : Nat} {name l r : Token} {vs rest : List Token} {s' : Cursor}
    (hname : name.kind = .ident) (hl : l.kind = .lBrack) (hr : r.kind = .rBrack)
    (hnests : nests [] (vs.map (·.kind)) = true)
    (h : typeWithin depth ⟨name :: l :: (vs ++ r :: rest), behind⟩ = .ok (t, s')) :
    s'.rest = rest := by
  cases depth with
  | zero => exact absurd h failHere_ok
  | succ depth =>
    obtain ⟨o, s₁, hpeek, h₁⟩ := bind_ok h
    obtain ⟨rfl, rfl⟩ := peek_ok hpeek
    rw [head?_cons, Option.map_some, hname] at h₁
    change typeName (typeWithin depth) _ = _ at h₁
    rw [typeName_eq] at h₁
    obtain ⟨first, s₂, hfirst, h₂⟩ := bind_ok h₁
    obtain ⟨tok, s₂', hexpect, hpure⟩ := bind_ok hfirst
    obtain ⟨-, rfl⟩ := pure_ok hpure
    obtain ⟨hrest₂, -⟩ := expect_ok hexpect
    obtain ⟨-, hrest₂⟩ := List.cons.inj hrest₂
    obtain ⟨dot, s₃, hdot, h₃⟩ := bind_ok h₂
    rcases eat_ok hdot with ⟨-, d, hd, hkind⟩ | ⟨rfl, rfl, -⟩
    · rw [← hrest₂] at hd
      rw [← (List.cons.inj hd).1, hl] at hkind
      cases hkind
    obtain ⟨opened, s₄, hopen, h₄⟩ := bind_ok h₃
    rcases eat_ok hopen with ⟨rfl, l', hrest₄, -⟩ | ⟨-, -, hno⟩
    · rw [← hrest₂] at hrest₄
      obtain ⟨-, hrest₄⟩ := List.cons.inj hrest₄
      -- the brackets that are open here are closed by `r`
      have hw : (Watch.brackets rest).Holds [.rBrack] s₄ := by
        change tokensBehind ([] ++ [.rBrack]) s₄.rest = some rest
        rw [← hrest₄, tokensBehind_append hnests, tokensBehind, hr]
        exact tokensBehind_nil rest
      obtain ⟨args, s₅, hargs, h₅⟩ := bind_ok h₄
      have hitem : (Watch.brackets rest).Sound (do
          let arg ← typeWithin depth
          return (arg, ← eat .comma)) fun _ => True :=
        (sound_typeWithin depth).bind fun arg _ =>
          (Watch.Sound.eat fun _ => rfl).bind fun _ _ => .pure fun _ => trivial
      obtain ⟨-, hw₅⟩ := (Watch.Sound.itemsUntil (Q := fun _ => True) hitem) _ _ _ _ _ hw hargs
      obtain ⟨close, s₆, hclose, h₆⟩ := bind_ok h₅
      obtain ⟨htake, hkind⟩ := expect_takes hclose
      have hw₆ : (Watch.brackets rest).Holds [] s₆ := hw₅.take htake (by rw [hkind]; rfl)
      dsimp only at h₆
      split at h₆
      · obtain ⟨_, _, hfail, -⟩ := bind_ok h₆
        exact absurd hfail failHere_ok
      · obtain ⟨-, rfl⟩ := pure_ok h₆
        exact Option.some.inj ((tokensBehind_nil _).symm.trans hw₆)
    · rw [← hrest₂] at hno
      exact absurd (congrArg some hl) hno

end Parser

/-- A name before a slice or an array is read as an instantiated type only up to where the element
begins. -/
theorem TypeExpr.rest_of_typeWithin (hform : t.Written place)
    (hnests : t.lengthNests = true) (hts : t.Spelled ts) (hfirst : t.firstKind = .lBrack)
    {name : Token} (hname : name.kind = .ident) {behind : Nat} {a : TypeExpr} {s' : Cursor}
    (h : Parser.typeWithin depth ⟨name :: (ts ++ us), behind⟩ = .ok (a, s')) :
    ∃ kind, s'.rest.head?.map (·.kind) = some kind ∧ kind.startsType = true := by
  have hnext : ∀ {elem : TypeExpr} {l r : Token} {vs es : List Token}, elem.Written .plain →
      elem.Spelled es → l.kind = .lBrack → r.kind = .rBrack →
      nests [] (vs.map (·.kind)) = true → ts = l :: (vs ++ [r]) ++ es →
      ∃ kind, s'.rest.head?.map (·.kind) = some kind ∧ kind.startsType = true := by
    rintro elem l r vs es helem hes hl hr hnests rfl
    have hlist : name :: (l :: (vs ++ [r]) ++ es ++ us) = name :: l :: (vs ++ r :: (es ++ us)) := by
      simp
    rw [hlist] at h
    rw [Parser.rest_of_typeWithin hname hl hr hnests h]
    obtain ⟨tok, es', rfl, -, hstarts⟩ := exists_first helem hes
    exact ⟨tok.kind, rfl, hstarts⟩
  cases t with
  | slice elem =>
    rw [Written, Formed] at hform
    rw [Spelled] at hts
    obtain ⟨_, es, hwithin, hes, rfl⟩ := hts
    obtain ⟨l, _, r, rfl, hl, hr, rfl⟩ := Form.exists_of_within hwithin
    exact hnext hform hes hl hr rfl rfl
  | array len elem =>
    rw [Written, Formed] at hform
    rw [Spelled] at hts
    obtain ⟨_, es, hwithin, hes, rfl⟩ := hts
    obtain ⟨l, vs, r, rfl, hl, hr, hkinds, -⟩ := Form.exists_of_within hwithin
    rw [lengthNests, ← hkinds] at hnests
    exact hnext hform.2 hes hl hr hnests rfl
  | chan dir elem => cases dir <;> cases hfirst
  | _ => cases hfirst

/-! ## Parameters -/

namespace Parser

def ParamEntry.asType : ParamEntry → TypeExpr
  | .bare name => .name name
  | .named _ type => type
  | .unnamed type => type

theorem groupUnnamed_eq (entries : List ParamEntry) :
    groupUnnamed entries = entries.map fun e => Param.unnamed e.asType := by
  induction entries with
  | nil => rfl
  | cons e entries ih => cases e <;> rw [groupUnnamed, ih] <;> rfl

def entriesOf (names : List String) (type : TypeExpr) : List ParamEntry :=
  match names with
  | [] => []
  | [name] => [.named name type]
  | name :: names => .bare name :: entriesOf names type

theorem groupNamed_entriesOf (hne : names ≠ []) (waiting : List String) (type : TypeExpr)
    (entries : List ParamEntry) :
    groupNamed waiting (entriesOf names type ++ entries)
      = (groupNamed [] entries).map (⟨waiting ++ names, type⟩ :: ·) := by
  induction names generalizing waiting with
  | nil => exact absurd rfl hne
  | cons name names ih =>
    cases names with
    | nil => rfl
    | cons other names =>
      have hrest := ih nofun (waiting ++ [name])
      rw [append_assoc] at hrest
      exact hrest

theorem any_isNamed_entriesOf (hne : names ≠ []) (type : TypeExpr) :
    (entriesOf names type).any (·.isNamed) = true := by
  induction names with
  | nil => exact absurd rfl hne
  | cons name names ih =>
    cases names with
    | nil => rfl
    | cons other names => exact ih nofun

/-- An entry of a parameter list that starts with a name, given the kind of the second token. -/
def entryBy (type : Parser TypeExpr) (second : Option TokenKind) : Parser ParamEntry := do
  if endsEntry second then return .bare (← identifier)
  else if second == some .dot then return .unnamed (← type)
  else if second == some .lBrack then
    match ← attempt? type fun _ s => endsEntry (s.rest.head?.map (·.kind)) with
    | some t => return .unnamed t
    | none => return .named (← identifier) (← paramType type)
  else if second == some .ellipsis || second.any TokenKind.startsType then
    return .named (← identifier) (← paramType type)
  else
    let _ ← next?
    failHere (.expected .parameterEnd)

theorem paramEntry_eq (type : Parser TypeExpr) :
    paramEntry type = (do
      if !(← isAt .ident) then return .unnamed (← paramType type)
      entryBy type (← peekAt 1)) :=
  rfl

end Parser

namespace Parses

open Stubwright.Parser

variable {type : Parser TypeExpr} {tok : Token} {ts rest : List Token} {e : ParamEntry}

theorem paramEntry_ident (hkind : tok.kind = .ident)
    (h : Parses (entryBy type (ts.head?.map (·.kind))) (tok :: ts) rest e) :
    Parses (paramEntry type) (tok :: ts) rest e := by
  rw [paramEntry_eq]
  refine isAt.bind ?_
  rw [if_neg (by simp [hkind])]
  refine peekAt.bind ?_
  rwa [getElem?_cons_succ, ← head?_eq_getElem?]

theorem paramEntry_other (hkind : ts.head?.map (·.kind) ≠ some .ident)
    (h : Parses (paramType type) ts rest t) : Parses (paramEntry type) ts rest (.unnamed t) := by
  rw [paramEntry_eq]
  refine isAt.bind ?_
  rw [if_pos (by simpa using hkind)]
  exact h.bind pure

end Parses

/-- What follows the name with which a type begins. -/
theorem TypeExpr.second_of_firstKind (hform : t.Written place)
    (hfirst : t.firstKind = .ident) (hts : t.Spelled ts) :
    (∃ tok, t = .name tok.text ∧ ts = [tok] ∧ tok.kind = .ident) ∨
      t.Written .plain ∧ ∃ tok second us, ts = tok :: second :: us ∧ tok.kind = .ident ∧
        (second.kind = .dot ∨ second.kind = .lBrack) := by
  cases t with
  | name n =>
    rw [Spelled] at hts
    obtain ⟨tok, rfl, hkind, rfl⟩ := hts
    exact .inl ⟨tok, rfl, rfl, hkind⟩
  | qualified p n =>
    have hplain := hform.plain (by simp) (by simp)
    rw [Spelled] at hts
    obtain ⟨tok, _, rfl, hkind, -, hrest⟩ := Form.exists_of_word_seq hts
    obtain ⟨dot, us, rfl, hdot, -⟩ := Form.exists_of_one_seq hrest
    exact .inr ⟨hplain, tok, dot, us, rfl, hkind, .inl hdot⟩
  | generic base args =>
    have hplain := hform.plain (by simp) (by simp)
    rw [Written, Formed] at hform
    rw [Spelled] at hts
    obtain ⟨bs, vs, hbs, hwithin, rfl⟩ := hts
    obtain ⟨l, us, rfl, hl, -⟩ := Form.exists_of_one_seq hwithin
    refine .inr ⟨hplain, ?_⟩
    cases base with
    | name n =>
      rw [Spelled] at hbs
      obtain ⟨tok, rfl, hkind, -⟩ := hbs
      exact ⟨tok, l, us, rfl, hkind, .inr hl⟩
    | qualified p n =>
      rw [Spelled] at hbs
      obtain ⟨tok, _, rfl, hkind, -, hrest⟩ := Form.exists_of_word_seq hbs
      obtain ⟨dot, cs, rfl, hdot, -⟩ := Form.exists_of_one_seq hrest
      exact ⟨tok, dot, cs ++ l :: us, rfl, hkind, .inl hdot⟩
    | _ => cases hform.1
  | chan dir elem => cases dir <;> cases hfirst
  | _ => cases hfirst

theorem endsType_of_endsEntry (h : Parser.endsEntry (us.head?.map (·.kind)) = true) :
    EndsType us := by
  intro kind hkind
  rw [hkind, Parser.endsEntry, Bool.or_eq_true, beq_iff_eq, beq_iff_eq] at h
  rcases h with h | h <;> rw [Option.some.inj h] <;> rfl

theorem endsEntry_of_startsType {kind : TokenKind} (h : kind.startsType = true) :
    Parser.endsEntry (some kind) = false := by
  rw [Bool.eq_false_iff, Parser.endsEntry, Ne, Bool.or_eq_true, beq_iff_eq, beq_iff_eq]
  rintro (hend | hend) <;> rw [Option.some.inj hend] at h <;> cases h

namespace TypeExpr

open Stubwright.Parser

theorem ReadsBack.parses_unnamed (h : t.ReadsBack) (hform : t.Written .param)
    (hregular : t.isRegular = true) (hts : t.Spelled ts) (hlen : ts.length ≤ depth)
    (hus : endsEntry (us.head?.map (·.kind)) = true) :
    ∃ e, Parses (paramEntry (typeWithin depth)) (ts ++ us) us e ∧ e.isNamed = false ∧
      e.asType.bare = t.bare := by
  have hends := endsType_of_endsEntry hus
  by_cases hfirst : t.firstKind = .ident
  · rcases second_of_firstKind hform hfirst hts with ⟨tok, rfl, rfl, hkind⟩ |
      ⟨hplain, tok, second, us', rfl, hkind, hsecond⟩
    · -- a lone name
      rw [singleton_append]
      refine ⟨.bare tok.text, .paramEntry_ident hkind ?_, rfl, rfl⟩
      rw [entryBy, if_pos hus]
      exact (Parses.identifier hkind).bind .pure
    · obtain ⟨t', hparses, hbare⟩ := h .plain hplain hregular _ hts depth us hlen hends nofun
      rw [cons_append, cons_append] at hparses ⊢
      refine ⟨.unnamed t', .paramEntry_ident hkind ?_, rfl, hbare⟩
      rw [head?_cons, Option.map_some]
      rcases hsecond with hsecond | hsecond
      · rw [hsecond, entryBy, if_neg (by decide), if_pos (by decide)]
        exact hparses.bind .pure
      · rw [hsecond, entryBy, if_neg (by decide), if_neg (by decide), if_pos (by decide)]
        exact (Parses.attempt?_some hparses fun _ => hus).bind .pure
  · obtain ⟨t', hparses, hbare⟩ := h .param hform hregular ts hts depth us hlen hends nofun
    refine ⟨.unnamed t', .paramEntry_other ?_ hparses, rfl, hbare⟩
    obtain ⟨tok, us', rfl, hkind, -⟩ := exists_first_param hform hts
    intro heq
    exact hfirst (hkind.symm.trans (Option.some.inj heq))

theorem ReadsBack.parses_named (h : t.ReadsBack) (hform : t.Written .param)
    (hregular : t.isRegular = true) (hnests : t.lengthNests = true) (hts : t.Spelled ts)
    (hlen : ts.length ≤ depth) (hus : endsEntry (us.head?.map (·.kind)) = true) {tok : Token}
    (htok : tok.kind = .ident) :
    ∃ t', Parses (paramEntry (typeWithin depth)) (tok :: (ts ++ us)) us (.named tok.text t') ∧
      t'.bare = t.bare := by
  obtain ⟨t', hparses, hbare⟩ := h .param hform hregular ts hts depth us hlen
    (endsType_of_endsEntry hus) nofun
  refine ⟨t', Parses.paramEntry_ident htok ?_, hbare⟩
  have hnamed : Parses (do return ParamEntry.named (← identifier) (← paramType (typeWithin depth)))
      (tok :: (ts ++ us)) us (.named tok.text t') :=
    (Parses.identifier htok).bind (hparses.bind Parses.pure)
  obtain ⟨first, us', heq, hkind, hstarts⟩ := exists_first_param hform hts
  rw [hkind] at hstarts
  have hhead : (ts ++ us).head?.map (·.kind) = some t.firstKind := by
    rw [heq]
    exact congrArg some hkind
  have hno : ∀ kind : TokenKind, kind ≠ .ellipsis → kind.startsType = false → t.firstKind ≠ kind := by
    rintro kind hdots hno rfl
    rcases hstarts with hstarts | hstarts
    · exact hdots hstarts
    · rw [hno] at hstarts
      cases hstarts
  have hnoEnd : endsEntry (some t.firstKind) = false := by
    simp [endsEntry, hno .comma (by decide) rfl, hno .rParen (by decide) rfl]
  rw [hhead, entryBy, if_neg (by simp [hnoEnd]), if_neg (by simpa using hno .dot (by decide) rfl)]
  by_cases hbrack : t.firstKind = .lBrack
  · rw [if_pos (by simpa using hbrack)]
    refine (Parses.attempt?_none fun behind a s hok => ?_).bind hnamed
    obtain ⟨kind, hrest, hkind⟩ := rest_of_typeWithin hform hnests hts hbrack htok hok
    rw [hrest]
    exact endsEntry_of_startsType hkind
  · rw [if_neg (by simpa using hbrack), if_pos (by simpa using hstarts)]
    exact hnamed

end TypeExpr

namespace Param

open Stubwright.Parser

variable {depth : Nat} {us rest : List Token} {entries : List ParamEntry} {ps : List Param}
  {close : Token}

theorem endsEntry_of_behind {item : Parser (ParamEntry × Bool)}
    (h : Items.Behind .rParen item us rest entries) :
    endsEntry (us.head?.map (·.kind)) = true := by
  rcases h.head with hhead | hhead <;> rw [hhead] <;> rfl

/-- A group of parameters with names is read back, entry by entry. -/
theorem items_named (hne : names ≠ []) {ws : List Token} (hws : Form.words names ws)
    (ht : t.ReadsBack) (hform : t.Written .param) (hregular : t.isRegular = true)
    (hnests : t.lengthNests = true) (hts : t.Spelled ts) (hlen : ts.length ≤ depth)
    (hbehind : Items.Behind .rParen (thenComma (paramEntry (typeWithin depth))) us rest entries) :
    ∃ t', t'.bare = t.bare ∧ Items .rParen (thenComma (paramEntry (typeWithin depth)))
      (ws ++ (ts ++ us)) rest (entriesOf names t' ++ entries) := by
  induction names generalizing ws with
  | nil => exact absurd rfl hne
  | cons name names ih =>
    obtain ⟨_, bs, ⟨tok, rfl, hkind, rfl⟩, rfl, hbs⟩ := Form.exists_of_separated_cons hws
    have hhead : ∀ vs, ([tok] ++ vs).head?.map (·.kind) ≠ some .rParen := by
      intro vs
      rw [singleton_append, head?_cons, Option.map_some, hkind]
      exact nofun
    rcases hbs with ⟨hnil, rfl⟩ | ⟨hmore, comma, cs, rfl, hcomma, hcs⟩
    · obtain rfl := map_eq_nil_iff.1 hnil
      obtain ⟨t', hparses, hbare⟩ := ht.parses_named hform hregular hnests hts hlen
        (endsEntry_of_behind hbehind) hkind
      refine ⟨t', hbare, ?_⟩
      exact .cons_of_behind (tok :: ts) (by decide) (hhead (ts ++ us)) hparses hbehind
    · have hnames : names ≠ [] := fun h => hmore (by rw [h]; rfl)
      obtain ⟨t', hbare, hitems⟩ := ih hnames hcs
      refine ⟨t', hbare, ?_⟩
      have hbare : Parses (paramEntry (typeWithin depth)) ([tok] ++ comma :: (cs ++ (ts ++ us)))
          (comma :: (cs ++ (ts ++ us))) (.bare tok.text) := by
        rw [singleton_append]
        refine .paramEntry_ident hkind ?_
        rw [head?_cons, Option.map_some, hcomma, entryBy, if_pos (by decide)]
        exact (Parses.identifier hkind).bind .pure
      have hall := Items.cons_of_behind [tok] (by decide) (hhead _) hbare
        (.inr ⟨comma, _, rfl, hcomma, hitems⟩)
      obtain ⟨other, names, rfl⟩ := exists_cons_of_ne_nil hnames
      exact hall

/-- Parameters with names are read back. -/
theorem items_allNamed (htypes : ∀ p ∈ ps, p.type.ReadsBack) (hform : ∀ p ∈ ps, p.Formed identified)
    (hregular : ∀ p ∈ ps, p.isRegular = true) (hnames : ∀ p ∈ ps, p.names ≠ [])
    (h : Form.separated .comma (ps.map fun p => p.Spelled) ts) (hlen : ts.length ≤ depth)
    (hclose : close.kind = .rParen) (rest : List Token) :
    ∃ entries, Items .rParen (thenComma (paramEntry (typeWithin depth))) (ts ++ close :: rest)
      (close :: rest) entries ∧ (ps ≠ [] → entries.any (·.isNamed) = true) ∧
      ∃ ps', groupNamed [] entries = some ps' ∧
        ps'.map (fun p => p.bare) = ps.map fun p => p.bare := by
  refine Items.of_separated (R := fun ps entries => (ps ≠ [] → entries.any (·.isNamed) = true) ∧
    ∃ ps', groupNamed [] entries = some ps' ∧
      ps'.map (fun p => p.bare) = ps.map fun p => p.bare) ⟨nofun, [], rfl, rfl⟩ ?_ h hlen hclose rest
  rintro ⟨names, type⟩ hp ts us rest ps entries hts hlen hbehind ⟨-, ps', hgroup, hbare⟩
  have hpform := hform _ hp
  have hpregular := hregular _ hp
  have hpnames : names ≠ [] := hnames _ hp
  rw [Param.Formed] at hpform
  rw [Param.isRegular, Bool.and_eq_true, Bool.or_eq_true, List.isEmpty_iff] at hpregular
  rw [Param.Spelled] at hts
  obtain ⟨ws, es, hws, hes, rfl⟩ := hts
  rw [length_append] at hlen
  obtain ⟨type', htype', hitems⟩ := items_named hpnames hws (htypes _ hp) hpform.2 hpregular.1
    (hpregular.2.resolve_left hpnames) hes (by omega) hbehind
  refine ⟨entriesOf names type' ++ entries, ?_, fun _ => ?_, ⟨names, type'⟩ :: ps', ?_, ?_⟩
  · rwa [append_assoc]
  · rw [any_append, any_isNamed_entriesOf hpnames, Bool.true_or]
  · rw [groupNamed_entriesOf hpnames, hgroup]
    rfl
  · rw [map_cons, map_cons, hbare, Param.bare, Param.bare, htype']

/-- Parameters without names are read back. -/
theorem items_allUnnamed (htypes : ∀ p ∈ ps, p.type.ReadsBack)
    (hform : ∀ p ∈ ps, p.Formed identified) (hregular : ∀ p ∈ ps, p.isRegular = true)
    (hnames : ∀ p ∈ ps, p.names = []) (h : Form.separated .comma (ps.map fun p => p.Spelled) ts)
    (hlen : ts.length ≤ depth) (hclose : close.kind = .rParen) (rest : List Token) :
    ∃ entries, Items .rParen (thenComma (paramEntry (typeWithin depth))) (ts ++ close :: rest)
      (close :: rest) entries ∧ entries.any (·.isNamed) = false ∧
      (groupUnnamed entries).map (fun p => p.bare) = ps.map fun p => p.bare := by
  refine Items.of_separated (R := fun ps entries => entries.any (·.isNamed) = false ∧
    (groupUnnamed entries).map (fun p => p.bare) = ps.map fun p => p.bare) ⟨rfl, rfl⟩ ?_ h hlen
    hclose rest
  rintro ⟨names, type⟩ hp ts us rest ps entries hts hlen hbehind ⟨hnone, hbare⟩
  have hpform := hform _ hp
  have hpregular := hregular _ hp
  obtain rfl : names = [] := hnames _ hp
  rw [Param.Formed] at hpform
  rw [Param.isRegular, Bool.and_eq_true] at hpregular
  rw [Param.Spelled] at hts
  obtain ⟨_, es, hws, hes, rfl⟩ := hts
  obtain rfl := hws
  rw [nil_append] at hlen ⊢
  obtain ⟨e, hparses, hunnamed, htype⟩ := (htypes _ hp).parses_unnamed hpform.2 hpregular.1 hes hlen
    (endsEntry_of_behind hbehind)
  have hhead : (es ++ us).head?.map (·.kind) ≠ some .rParen := by
    obtain ⟨tok, us', rfl, -, hstarts⟩ := exists_first_param hpform.2 hes
    intro heq
    have hkind : tok.kind = .rParen := Option.some.inj heq
    rw [hkind] at hstarts
    rcases hstarts with hstarts | hstarts <;> cases hstarts
  refine ⟨e :: entries, Items.cons_of_behind es (by decide) hhead hparses hbehind, ?_, ?_⟩
  · rw [any_cons, hunnamed, hnone]
    rfl
  · rw [groupUnnamed_eq, map_cons, map_cons, map_cons, ← groupUnnamed_eq, hbare,
      Param.unnamed, Param.bare, Param.bare, htype]

/-- A list of parameters in parentheses is read back. -/
theorem parses_params (htypes : ∀ p ∈ ps, p.type.ReadsBack) (hform : ∀ p ∈ ps, p.Formed identified)
    (hregular : ∀ p ∈ ps, p.isRegular = true) (huniform : Param.Uniform ps)
    (h : Form.within .lParen .rParen (Form.separated .comma (ps.map fun p => p.Spelled)) ts)
    (hlen : ts.length ≤ depth + 1) (rest : List Token) :
    ∃ ps', Parses (params (typeWithin depth)) (ts ++ rest) rest ps' ∧
      ps'.map (fun p => p.bare) = ps.map fun p => p.bare := by
  obtain ⟨l, us, r, rfl, hl, hr, hus⟩ := Form.exists_of_within h
  have hinner : us.length ≤ depth := by
    simp only [length_cons, length_append] at hlen
    omega
  obtain ⟨entries, hitems, ps', hgroup, hbare⟩ : ∃ entries,
      Items .rParen (thenComma (paramEntry (typeWithin depth))) (us ++ r :: rest) (r :: rest) entries ∧
      ∃ ps', groupParams entries = some ps' ∧
        ps'.map (fun p => p.bare) = ps.map fun p => p.bare := by
    by_cases hnone : ∀ p ∈ ps, p.names = []
    · obtain ⟨entries, hitems, hany, hbare⟩ :=
        items_allUnnamed htypes hform hregular hnone hus hinner hr rest
      refine ⟨entries, hitems, groupUnnamed entries, ?_, hbare⟩
      rw [groupParams, hany]
      rfl
    · obtain ⟨entries, hitems, hany, ps', hgroup, hbare⟩ :=
        items_allNamed htypes hform hregular (huniform.resolve_left hnone) hus hinner hr rest
      refine ⟨entries, hitems, ps', ?_, hbare⟩
      have hne : ps ≠ [] := by
        rintro rfl
        exact hnone nofun
      rw [groupParams, hany hne]
      exact hgroup
  refine ⟨ps', ?_, hbare⟩
  have hlist : l :: (us ++ [r]) ++ rest = l :: (us ++ r :: rest) := by simp
  rw [hlist]
  refine (Parses.expect hl).bind (hitems.parses.bind ((Parses.expect hr).bind ?_))
  rw [hgroup]
  exact .pure

end Param

/-! ## Signatures -/

namespace Parser

/-- The results of a function behind its parameters. -/
def results (type : Parser TypeExpr) (ps : List Param) : Parser Signature := do
  let ahead ← peek
  if ahead == some .lParen then return ⟨ps, ← params type⟩
  else if ahead.any TokenKind.startsType then return ⟨ps, [Param.unnamed (← type)]⟩
  else return ⟨ps, []⟩

theorem signature_eq (type : Parser TypeExpr) :
    signature type = (do results type (← params type)) :=
  rfl

end Parser

theorem TypeExpr.exists_of_firstKind_lParen (h : t.firstKind = .lParen) :
    ∃ elem, t = .paren elem := by
  cases t with
  | paren elem => exact ⟨elem, rfl⟩
  | chan dir elem => cases dir <;> cases h
  | _ => cases h

/-- A type is read back, and so is what stands in parentheses when it does. -/
def TypeExpr.ReadsBackWithin (t : TypeExpr) : Prop :=
  t.ReadsBack ∧ ∀ elem, t = .paren elem → elem.ReadsBack

namespace Signature

open Stubwright.Parser

variable {depth : Nat} {rest : List Token}

theorem parses_results {rs : List Param} (htypes : ∀ p ∈ rs, p.type.ReadsBack)
    (hform : ∀ p ∈ rs, p.Formed identified) (hregular : ∀ p ∈ rs, p.isRegular = true)
    (huniform : Param.Uniform rs)
    (h : Form.within .lParen .rParen (Form.separated .comma (rs.map fun p => p.Spelled)) ts)
    (hlen : ts.length ≤ depth) (ps : List Param) :
    ∃ rs', Parses (Parser.results (typeWithin depth) ps) (ts ++ rest) rest ⟨ps, rs'⟩ ∧
      rs'.map (fun p => p.bare) = rs.map fun p => p.bare := by
  obtain ⟨rs', hparses, hbare⟩ := Param.parses_params htypes hform hregular huniform h
    (Nat.le_succ_of_le hlen) rest
  refine ⟨rs', Parses.peek.bind ?_, hbare⟩
  obtain ⟨l, us, rfl, hl⟩ := Form.startsWith_one.seq ts h
  rw [cons_append, head?_cons, Option.map_some, hl, if_pos (by decide)]
  exact hparses.bind .pure

/-- A single result without a name is read back.  One in parentheses is read as a list of results
with one member. -/
theorem parses_result (h : t.ReadsBackWithin) (hplain : t.Written .plain)
    (hregular : t.isRegular = true) (hts : t.Spelled ts) (hlen : ts.length ≤ depth)
    (hends : EndsType rest) (ps : List Param) :
    ∃ rs', Parses (Parser.results (typeWithin depth) ps) (ts ++ rest) rest ⟨ps, rs'⟩ ∧
      rs'.map (fun p => p.bare) = [(⟨[], t⟩ : Param).bare] := by
  by_cases hparen : t.firstKind = .lParen
  · obtain ⟨elem, rfl⟩ := TypeExpr.exists_of_firstKind_lParen hparen
    rw [TypeExpr.Written, TypeExpr.Formed] at hplain
    rw [TypeExpr.isRegular] at hregular
    rw [TypeExpr.Spelled] at hts
    have hone : ∀ p ∈ [(⟨[], elem⟩ : Param)], p = ⟨[], elem⟩ := fun p hp => mem_singleton.1 hp
    have hspelled : Form.within .lParen .rParen
        (.separated .comma ([(⟨[], elem⟩ : Param)].map fun p => p.Spelled)) ts := by
      rw [map_singleton, Form.separated, Param.Spelled, Form.words_nil_seq]
      exact hts
    obtain ⟨rs', hparses, hbare⟩ := parses_results
      (fun p hp => by rw [hone p hp]; exact h.2 elem rfl)
      (fun p hp => by rw [hone p hp, Param.Formed]; exact ⟨(by simp), hplain.at_place .param⟩)
      (fun p hp => by rw [hone p hp, Param.isRegular, hregular]; rfl)
      (.inl fun p hp => by rw [hone p hp]) hspelled hlen ps
    refine ⟨rs', hparses, ?_⟩
    rw [hbare, map_singleton, Param.bare, Param.bare, TypeExpr.bare]
  · obtain ⟨t', hparses, hbare⟩ := h.1 .plain hplain hregular ts hts depth rest hlen hends (by simp)
    refine ⟨[.unnamed t'], Parses.peek.bind ?_, ?_⟩
    · obtain ⟨tok, us, rfl, hkind, hstarts⟩ := TypeExpr.exists_first hplain hts
      rw [← hkind] at hparen
      rw [cons_append, head?_cons, Option.map_some, if_neg (by simpa using hparen),
        if_pos (by simpa using hstarts)]
      exact hparses.bind .pure
    · rw [map_singleton, Param.unnamed, Param.bare, Param.bare, hbare]

end Signature

namespace Signature

open Stubwright.Parser

variable {depth : Nat} {rest : List Token}

theorem parses_noResults {type : Parser TypeExpr} (hends : EndsType rest) (ps : List Param) :
    Parses (Parser.results type ps) rest rest ⟨ps, []⟩ := by
  refine Parses.peek.bind ?_
  have hno : (rest.head?.map (·.kind)).any TokenKind.startsType = false := by
    rw [Option.any_eq_false]
    intro kind hkind
    exact startsType_eq_false_of_endsType (hends kind hkind)
  rw [if_neg (by simpa using hends.head_ne rfl), if_neg (by simp [hno])]
  exact Parses.pure

/-- A signature is read back. -/
theorem parses (h : sig.Each TypeExpr.ReadsBackWithin) (hform : sig.Formed identified)
    (hregular : sig.isRegular = true) (hts : sig.Spelled ts) (hlen : ts.length ≤ depth)
    (hends : EndsType rest) :
    ∃ sig', Parses (signature (typeWithin depth)) (ts ++ rest) rest sig' ∧
      sig'.bare = sig.bare := by
  obtain ⟨ps, rs⟩ := sig
  rw [Signature.Formed] at hform
  obtain ⟨hpsForm, hrsForm, hpsUniform, hrsUniform⟩ := hform
  rw [Signature.isRegular, Bool.and_eq_true, all_map, all_map, all_eq_true,
    all_eq_true] at hregular
  obtain ⟨hpsRegular, hrsRegular⟩ := hregular
  have hparams : ∀ us, Form.within .lParen .rParen
        (.separated .comma (ps.map fun p => p.Spelled)) us → us.length ≤ depth → ∀ vs,
      (∀ ps', ∃ rs', Parses (Parser.results (typeWithin depth) ps') (vs ++ rest) rest ⟨ps', rs'⟩ ∧
        rs'.map (fun p => p.bare) = rs.map fun p => p.bare) →
      ∃ sig', Parses (signature (typeWithin depth)) (us ++ vs ++ rest) rest sig' ∧
        sig'.bare = .bare ⟨ps, rs⟩ := by
    intro us hus hlen vs hresults
    obtain ⟨ps', hparses, hbare⟩ := Param.parses_params (fun p hp => (h.1 p hp).1) hpsForm
      hpsRegular hpsUniform hus (Nat.le_succ_of_le hlen) (vs ++ rest)
    obtain ⟨rs', hparses', hbare'⟩ := hresults ps'
    rw [append_assoc, signature_eq]
    refine ⟨⟨ps', rs'⟩, hparses.bind hparses', ?_⟩
    rw [Signature.bare, Signature.bare, hbare, hbare']
  have hrsPlain : ∀ p ∈ rs, p.isRegular = true ∧ p.type.isEllipsis = false := by
    intro p hp
    simpa using hrsRegular p hp
  rcases rs with _ | ⟨⟨names, type⟩, rs⟩
  · rw [Signature.Spelled] at hts
    rw [← append_nil ts]
    exact hparams ts hts hlen [] fun ps' => ⟨[], parses_noResults hends ps', rfl⟩
  · by_cases hone : names = [] ∧ rs = []
    · obtain ⟨rfl, rfl⟩ := hone
      rw [Signature.Spelled] at hts
      obtain ⟨us, vs, hus, hvs, rfl⟩ := hts
      rw [length_append] at hlen
      refine hparams us hus (by omega) vs fun ps' => ?_
      have htype := hrsForm _ mem_cons_self
      rw [Param.Formed] at htype
      obtain ⟨hregular, hellipsis⟩ := hrsPlain _ mem_cons_self
      rw [Param.isRegular, Bool.and_eq_true] at hregular
      have hplain : type.Written .plain := htype.2.plain
        (fun e heq => by rw [heq] at hellipsis; cases hellipsis)
        (fun ts heq => by rw [heq, TypeExpr.Formed] at htype; cases htype.2.1)
      exact parses_result (h.2 _ mem_cons_self) hplain hregular.1 hvs (by omega) hends ps'
    · rw [Signature.Spelled] at hts
      · obtain ⟨us, vs, hus, hvs, rfl⟩ := hts
        rw [length_append] at hlen
        refine hparams us hus (by omega) vs fun ps' => ?_
        exact parses_results (fun p hp => (h.2 p hp).1) hrsForm (fun p hp => (hrsPlain p hp).1)
          hrsUniform hvs (by omega) ps'
      · simp
      · rintro type ⟨⟩
        exact hone ⟨rfl, rfl⟩

theorem parses_func (h : sig.Each TypeExpr.ReadsBackWithin) (hform : sig.Formed identified)
    (hregular : sig.isRegular = true) (hts : (TypeExpr.func sig).Spelled ts)
    (hlen : ts.length ≤ depth + 1) (hends : EndsType rest) :
    ∃ sig', Parses (typeStep (typeWithin depth)) (ts ++ rest) rest (.func sig') ∧
      sig'.bare = sig.bare := by
  rw [TypeExpr.Spelled] at hts
  obtain ⟨tok, us, rfl, hkind, hus⟩ := Form.exists_of_one_seq hts
  obtain ⟨sig', hparses, hbare⟩ := parses h hform hregular hus (Nat.le_of_succ_le_succ hlen) hends
  exact ⟨sig', .peek_next hkind rfl (hparses.bind .pure), hbare⟩

end Signature

theorem readsBack_func (h : sig.Each ReadsBackWithin) : (func sig).ReadsBack := by
  refine .of_plain nofun nofun ?_
  intro hplain hregular ts hts depth rest hlen hends
  rw [Written, Formed] at hplain
  rw [isRegular] at hregular
  obtain ⟨sig', hparses, hbare⟩ := Signature.parses_func h hplain hregular hts hlen hends
  exact ⟨.func sig', hparses, by rw [bare, bare, hbare]⟩

end Stubwright
