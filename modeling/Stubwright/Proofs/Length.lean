import Stubwright.Proofs.Stub.Reading

/-!
# Brackets behind a declared name

In `type A [` the bracket opens type parameters or the length of an array.  Where a name and a star
come first the reader tries type parameters and gives them up for a length.

* `exists_parses_typeParams`: a union with a star is read as a type parameter.
-/

namespace Stubwright

open List Option

variable {ks : List TokenKind} {depth : Nat} {k : TokenKind}

/-! ## Length expressions -/

/-- Whether a kind of token is a binary operator of a length. -/
def TokenKind.isLengthOperator : TokenKind → Bool
  | .plus | .minus | .star | .slash | .percent | .amp | .pipe | .caret | .shl | .shr | .andNot =>
    true
  | _ => false

/-- The kinds of the tokens of a length expression. -/
inductive LengthExpr : List TokenKind → Prop
  | name : LengthExpr [.ident]
  | qualified : LengthExpr [.ident, .dot, .ident]
  | literal : LengthExpr [.intLit]
  | paren {ks : List TokenKind} (h : LengthExpr ks) : LengthExpr (.lParen :: (ks ++ [.rParen]))
  /-- A call; a comma may stand behind the last argument. -/
  | call {f : List TokenKind} {args : List (List TokenKind)} {comma : List TokenKind}
      (hf : LengthExpr f) (hargs : ∀ arg ∈ args, LengthExpr arg)
      (hcomma : comma = [] ∨ comma = [.comma] ∧ args ≠ []) :
      LengthExpr (f ++ .lParen :: ([.comma].intercalate args ++ (comma ++ [.rParen])))
  | binary {op : TokenKind} {ks ks' : List TokenKind} (hop : op.isLengthOperator = true)
      (h : LengthExpr ks) (h' : LengthExpr ks') : LengthExpr (ks ++ op :: ks')

/-- Whether kinds of tokens go on with an expression up to its end: `due` says that an operand is
due, and `depth` how many parentheses are open. -/
def spansExpr (due : Bool) (depth : Nat) : List TokenKind → Bool
  | [] => !due && depth == 0
  | .ident :: ks => due && spansExpr false depth ks
  | .intLit :: ks => due && spansExpr false depth ks
  | .dot :: ks => !due && spansExpr true depth ks
  | .lParen :: ks => spansExpr true (depth + 1) ks
  | .rParen :: ks => depth != 0 && spansExpr false (depth - 1) ks
  | .comma :: ks => !due && depth != 0 && spansExpr true depth ks
  | k :: ks => k.isLengthOperator && !due && spansExpr true depth ks

theorem spansExpr_operator {op : TokenKind} (hop : op.isLengthOperator = true) (depth : Nat)
    (ks : List TokenKind) : spansExpr false depth (op :: ks) = spansExpr true depth ks := by
  cases op <;> first | rfl | cases hop

/-- Behind a length expression no operand is due. -/
theorem LengthExpr.spansExpr_append (h : LengthExpr ks) (depth : Nat) (rest : List TokenKind) :
    spansExpr true depth (ks ++ rest) = spansExpr false depth rest := by
  induction h generalizing depth rest with
  | name | qualified | literal => rfl
  | paren h ih =>
    rw [cons_append, append_assoc, spansExpr, ih]
    rfl
  | @call f args comma hf hargs hcomma ihf ihargs =>
    have hlist : ∀ args : List (List TokenKind), args ≠ [] →
        (∀ arg ∈ args, ∀ depth rest,
          spansExpr true depth (arg ++ rest) = spansExpr false depth rest) →
        ∀ rest, spansExpr true (depth + 1) ([.comma].intercalate args ++ rest)
          = spansExpr false (depth + 1) rest := by
      intro args hne hargs
      induction args with
      | nil => exact absurd rfl hne
      | cons arg args ih =>
        intro rest
        cases args with
        | nil =>
          rw [intercalate_singleton]
          exact hargs arg mem_cons_self _ _
        | cons arg' args =>
          have hrest := ih (by simp) (fun a ha => hargs a (mem_cons_of_mem _ ha)) rest
          rw [intercalate_cons_cons, append_assoc, append_assoc,
            hargs arg mem_cons_self]
          exact hrest
    rw [append_assoc, ihf, cons_append, spansExpr]
    by_cases hne : args = []
    · subst hne
      obtain rfl : comma = [] := hcomma.resolve_right fun h => h.2 rfl
      rfl
    · rw [append_assoc, hlist args hne ihargs]
      rcases hcomma with rfl | ⟨rfl, -⟩ <;> rfl
  | binary hop h h' ih ih' =>
    rw [append_assoc, ih, cons_append, spansExpr_operator hop, ih']

theorem LengthExpr.spans (h : LengthExpr ks) : spansExpr true 0 ks = true := by
  have happend := h.spansExpr_append 0 []
  rwa [append_nil] at happend

/-- Where an operand is due, a name, a number or a parenthesis stands. -/
theorem spansExpr_true_cons (h : spansExpr true depth (k :: ks) = true) :
    (k = .ident ∨ k = .intLit) ∧ spansExpr false depth ks = true ∨
      k = .lParen ∧ spansExpr true (depth + 1) ks = true ∨ k = .rParen ∧ depth ≠ 0 := by
  cases k <;> simp_all [spansExpr, TokenKind.isLengthOperator]

/-- Where no operand is due, an expression goes on with a selector, a call, an operator, or what
parentheses hold. -/
theorem spansExpr_false_cons (h : spansExpr false depth (k :: ks) = true) :
    (k = .dot ∨ k.isLengthOperator = true) ∧ spansExpr true depth ks = true ∨
      k = .lParen ∧ spansExpr true (depth + 1) ks = true ∨
      k = .rParen ∧ depth ≠ 0 ∧ spansExpr false (depth - 1) ks = true ∨
      k = .comma ∧ depth ≠ 0 ∧ spansExpr true depth ks = true := by
  cases k <;> simp_all [spansExpr, TokenKind.isLengthOperator]

/-- An expression is taken as a length up to the bracket behind it. -/
theorem spansLength_of_spansExpr {due : Bool} (h : spansExpr due depth ks = true) :
    spansLength depth ks = true := by
  induction ks generalizing due depth with
  | nil => cases due <;> simp_all [spansExpr, spansLength]
  | cons k ks ih =>
    have hstep : ∃ due', spansExpr due' (depthAfter depth k) ks = true ∧ k ≠ .rBrack ∧ k ≠ .semi := by
      cases k <;> simp_all [spansExpr, depthAfter, TokenKind.isLengthOperator]
    obtain ⟨due', hrest, hbrack, hsemi⟩ := hstep
    exact spansLength_cons.2 ⟨fun hk => hbrack hk.1, hsemi, ih hrest⟩

/-! ## Operands that are types -/

/-- The kinds of the tokens of an operand that can be read as a type: a name in any number of
parentheses. -/
inductive TypeOperand : List TokenKind → Prop
  | name : TypeOperand [.ident]
  | qualified : TypeOperand [.ident, .dot, .ident]
  | paren {ks : List TokenKind} (h : TypeOperand ks) : TypeOperand (.lParen :: (ks ++ [.rParen]))

/-- A name, a star and operands that are types, at least two, with bars between them. -/
def StarUnion (ks : List TokenKind) : Prop :=
  ∃ operands : List (List TokenKind), 2 ≤ operands.length ∧ (∀ o ∈ operands, TypeOperand o) ∧
    ks = .ident :: .star :: [.pipe].intercalate operands

theorem TypeOperand.kind_mem (h : TypeOperand ks) :
    ∀ k ∈ ks, k ∈ [TokenKind.ident, .dot, .lParen, .rParen] := by
  induction h with
  | name | qualified => decide
  | paren _ ih =>
    rw [forall_mem_cons, forall_mem_append]
    exact ⟨by decide, ih, by decide⟩

/-- A length with a number, a call with two arguments or an operator other than these is no union
with a star. -/
theorem StarUnion.kind_mem (h : StarUnion ks) :
    ∀ k ∈ ks, k ∈ [TokenKind.ident, .dot, .lParen, .rParen, .star, .pipe] := by
  obtain ⟨operands, -, hall, rfl⟩ := h
  rw [forall_mem_cons, forall_mem_cons]
  refine ⟨by decide, by decide, ?_⟩
  induction operands with
  | nil => simp
  | cons o operands ih =>
    obtain ⟨ho, hall⟩ := forall_mem_cons.1 hall
    have hmem : ∀ k ∈ o, k ∈ [.ident, .dot, .lParen, .rParen, .star, .pipe] :=
      fun k hk => mem_append_left [TokenKind.star, .pipe] (ho.kind_mem k hk)
    cases operands with
    | nil => rwa [intercalate_singleton]
    | cons o' operands =>
      rw [intercalate_cons_cons, forall_mem_append, forall_mem_append]
      exact ⟨⟨hmem, by decide⟩, ih hall⟩

namespace Parser

variable {ts rest : List Token} {close : Token} {b : Nat} {s s' : Cursor} {d : Nat} {t : TypeExpr}
  {x star : Token} {us ps : List Token} {operands : List (List TokenKind)}

theorem identifier_ok {name : String} (h : identifier s = .ok (name, s')) :
    ∃ x, s.rest = x :: s'.rest ∧ x.kind = .ident := by
  obtain ⟨tok, s₁, hexpect, hpure⟩ := bind_ok h
  obtain ⟨-, rfl⟩ := pure_ok hpure
  exact ⟨tok, expect_ok hexpect⟩

section

variable {depth : Nat} {x : Token} {us : List Token} {t : TypeExpr}
  (h : typeWithin (depth + 1) ⟨x :: us, b⟩ = .ok (t, s))

include h

/-- A type that begins with a name. -/
theorem typeWithin_ident_ok (hx : x.kind = .ident) :
    typeName (typeWithin depth) ⟨x :: us, b⟩ = .ok (t, s) := by
  obtain ⟨o, s₁, hpeek, h₁⟩ := bind_ok h
  obtain ⟨rfl, rfl⟩ := peek_ok hpeek
  rw [head?_cons, map_some, hx] at h₁
  exact h₁

theorem typeWithin_star_ok (hx : x.kind = .star) :
    ∃ elem, typeWithin depth ⟨us, x.stop⟩ = .ok (elem, s) ∧ t = .pointer elem := by
  obtain ⟨o, s₁, hpeek, h₁⟩ := bind_ok h
  obtain ⟨rfl, rfl⟩ := peek_ok hpeek
  rw [head?_cons, map_some, hx] at h₁
  obtain ⟨_, s₂, hnext, h₂⟩ := bind_ok h₁
  cases hnext
  obtain ⟨elem, s₃, helem, h₃⟩ := bind_ok h₂
  obtain ⟨rfl, rfl⟩ := pure_ok h₃
  exact ⟨elem, helem, rfl⟩

theorem typeWithin_lParen_ok (hx : x.kind = .lParen) :
    ∃ elem s₁ r, typeWithin depth ⟨us, x.stop⟩ = .ok (elem, s₁) ∧ s₁.rest = r :: s.rest ∧
      r.kind = .rParen ∧ t = .paren elem := by
  obtain ⟨o, s₁, hpeek, h₁⟩ := bind_ok h
  obtain ⟨rfl, rfl⟩ := peek_ok hpeek
  rw [head?_cons, map_some, hx] at h₁
  obtain ⟨_, s₂, hnext, h₂⟩ := bind_ok h₁
  cases hnext
  obtain ⟨elem, s₃, helem, h₃⟩ := bind_ok h₂
  obtain ⟨r, s₄, hexpect, h₄⟩ := bind_ok h₃
  obtain ⟨rfl, rfl⟩ := pure_ok h₄
  obtain ⟨hrest, hkind⟩ := expect_ok hexpect
  exact ⟨elem, s₃, r, helem, hrest, hkind, rfl⟩

/-- Neither a number nor a closing parenthesis begins a type. -/
theorem typeWithin_first_ne (hx : x.kind = .intLit ∨ x.kind = .rParen) : False := by
  obtain ⟨o, s₁, hpeek, h₁⟩ := bind_ok h
  obtain ⟨rfl, rfl⟩ := peek_ok hpeek
  rw [head?_cons, map_some] at h₁
  rcases hx with hx | hx <;> rw [hx] at h₁ <;> exact failHere_ok h₁

end

/-- Before the bracket that closes a length no type arguments stand. -/
theorem typeArgs_ok {base : TypeExpr} (hspans : spansExpr false d (ts.map (·.kind)) = true)
    (hclose : close.kind = .rBrack) (hs : s.rest = ts ++ close :: rest)
    (h : typeArgs (typeWithin depth) base s = .ok (t, s')) :
    t = base ∧ s'.rest = ts ++ close :: rest := by
  obtain ⟨opened, s₁, hopen, h₁⟩ := bind_ok h
  rcases eat_ok hopen with ⟨rfl, l, hl, hkind⟩ | ⟨rfl, rfl, -⟩
  · rw [hs] at hl
    cases ts with
    | nil =>
      rw [← (List.cons.inj hl).1, hclose] at hkind
      cases hkind
    | cons u us =>
      rw [← (List.cons.inj hl).1] at hkind
      rw [map_cons, hkind] at hspans
      cases hspans
  · obtain ⟨rfl, rfl⟩ := pure_ok h₁
    exact ⟨rfl, hs⟩

/-- A type name that is read before the bracket that closes a length. -/
theorem operand_of_typeName (hx : x.kind = .ident)
    (hspans : spansExpr false d (ts.map (·.kind)) = true) (hclose : close.kind = .rBrack)
    (h : typeName (typeWithin depth) ⟨x :: (ts ++ close :: rest), b⟩ = .ok (t, s)) :
    ∃ os qs, x :: ts = os ++ qs ∧ TypeOperand (os.map (·.kind)) ∧
      spansExpr false d (qs.map (·.kind)) = true ∧ s.rest = qs ++ close :: rest ∧
      isTypeLiteral t = false := by
  rw [typeName_eq] at h
  obtain ⟨first, s₁, hfirst, h₁⟩ := bind_ok h
  obtain ⟨_, hs₁, -⟩ := identifier_ok hfirst
  replace hs₁ := (List.cons.inj hs₁).2.symm
  obtain ⟨dotted, s₂, hdot, h₂⟩ := bind_ok h₁
  rcases eat_ok hdot with ⟨rfl, dot, hs₂, hkind⟩ | ⟨rfl, rfl, -⟩
  · rw [hs₁] at hs₂
    -- neither the point nor the name behind it is the closing bracket
    rcases ts with _ | ⟨dot', _ | ⟨y, ts⟩⟩
    · rw [← (List.cons.inj hs₂).1, hclose] at hkind
      cases hkind
    · obtain ⟨second, s₃, hsecond, -⟩ := bind_ok h₂
      obtain ⟨y, hs₃, hy⟩ := identifier_ok hsecond
      rw [← (List.cons.inj hs₂).2] at hs₃
      rw [← (List.cons.inj hs₃).1, hclose] at hy
      cases hy
    · obtain ⟨second, s₃, hsecond, h₃⟩ := bind_ok h₂
      obtain ⟨y', hs₃, hy⟩ := identifier_ok hsecond
      obtain ⟨rfl, htail⟩ := List.cons.inj hs₂
      rw [← htail] at hs₃
      obtain ⟨rfl, hbehind⟩ := List.cons.inj hs₃
      rw [map_cons, map_cons, hkind, hy] at hspans
      obtain ⟨rfl, hs⟩ := typeArgs_ok hspans hclose hbehind.symm h₃
      refine ⟨[x, dot', y], ts, rfl, ?_, hspans, hs, rfl⟩
      rw [map_cons, map_cons, map_singleton, hx, hkind, hy]
      exact .qualified
  · obtain ⟨rfl, hs⟩ := typeArgs_ok hspans hclose hs₁ h₂
    exact ⟨[x], ts, rfl, by rw [map_singleton, hx]; exact .name, hspans, hs, rfl⟩

/-- A type that is read where an operand is due is a name in parentheses, and an expression goes on
behind it. -/
theorem operand_of_typeWithin (hspans : spansExpr true d (ts.map (·.kind)) = true)
    (hclose : close.kind = .rBrack) (h : typeWithin depth ⟨ts ++ close :: rest, b⟩ = .ok (t, s)) :
    ∃ os qs, ts = os ++ qs ∧ TypeOperand (os.map (·.kind)) ∧
      spansExpr false d (qs.map (·.kind)) = true ∧ s.rest = qs ++ close :: rest ∧
      isTypeLiteral t = false := by
  induction depth generalizing ts d b t s with
  | zero => exact absurd h failHere_ok
  | succ depth ih =>
    cases ts with
    | nil => cases hspans
    | cons x ts =>
      rw [map_cons] at hspans
      rw [cons_append] at h
      rcases spansExpr_true_cons hspans with ⟨hx | hx, hrest⟩ | ⟨hx, hrest⟩ | ⟨hx, -⟩
      · exact operand_of_typeName hx hrest hclose (typeWithin_ident_ok h hx)
      · exact (typeWithin_first_ne h (.inl hx)).elim
      · obtain ⟨elem, s₁, r, helem, hs₁, hr, rfl⟩ := typeWithin_lParen_ok h hx
        obtain ⟨os, qs, rfl, hos, hqs, hs, hliteral⟩ := ih hrest helem
        rw [hs] at hs₁
        cases qs with
        | nil =>
          rw [← (List.cons.inj hs₁).1, hclose] at hr
          cases hr
        | cons r' qs =>
          obtain ⟨rfl, hs'⟩ := List.cons.inj hs₁
          rw [map_cons, hr] at hqs
          refine ⟨x :: (os ++ [r']), qs, by simp, ?_, hqs, hs'.symm, hliteral⟩
          rw [map_cons, map_append, hx, map_singleton, hr]
          exact .paren hos
      · exact (typeWithin_first_ne h (.inr hx)).elim

/-! ## Type parameters in place of a length -/

theorem exists_cons_of_kind (hclose : close.kind = .rBrack) (hx : x.kind ≠ .rBrack)
    (h : ts ++ close :: rest = x :: us) : ∃ qs, ts = x :: qs ∧ us = qs ++ close :: rest := by
  cases ts with
  | nil =>
    obtain ⟨rfl, -⟩ := List.cons.inj h
    exact absurd hclose hx
  | cons y qs =>
    obtain ⟨rfl, rfl⟩ := List.cons.inj h
    exact ⟨qs, rfl, rfl⟩

theorem round_of_loop {α β : Type} {step : α → Parser (α ⊕ β)} {a : α} {out : β}
    (h : loop step a s = .ok (out, s')) :
    ∃ r s₁, step a s = .ok (r, s₁) ∧ (match r with
      | .inl a' => rounds step s.rest.length a'
      | .inr out' => pure out') s₁ = .ok (out, s') :=
  bind_ok (p := step a) h

/-- A term of a union without a tilde; another round follows behind a bar. -/
theorem unionTerm_ok {acc : List Term} {r : List Term ⊕ List Term}
    (hs : s.rest.head?.map (·.kind) ≠ some .tilde) (h : unionTerm type acc s = .ok (r, s')) :
    ∃ t s₁, type s = .ok (t, s₁) ∧
      ((∃ bar, s₁.rest = bar :: s'.rest ∧ bar.kind = .pipe ∧ r = .inl (acc ++ [⟨false, t⟩])) ∨
        s₁ = s' ∧ r = .inr (acc ++ [⟨false, t⟩])) := by
  obtain ⟨tilde, s₁, htilde, h₁⟩ := bind_ok h
  obtain ⟨rfl, rfl⟩ : tilde = false ∧ s₁ = s := by
    rcases eat_ok htilde with ⟨rfl, x, hx, hkind⟩ | ⟨rfl, rfl, -⟩
    · rw [hx, head?_cons, map_some, hkind] at hs
      exact absurd rfl hs
    · exact ⟨rfl, rfl⟩
  obtain ⟨t, s₂, htype, h₂⟩ := bind_ok h₁
  obtain ⟨more, s₃, hbar, h₃⟩ := bind_ok h₂
  rcases eat_ok hbar with ⟨rfl, bar, hs₃, hkind⟩ | ⟨rfl, rfl, -⟩
  · obtain ⟨rfl, rfl⟩ := pure_ok h₃
    exact ⟨t, s₂, htype, .inl ⟨bar, hs₃, hkind, rfl⟩⟩
  · obtain ⟨rfl, rfl⟩ := pure_ok h₃
    exact ⟨t, s', htype, .inr ⟨rfl, rfl⟩⟩

/-- What begins no operand does not stand where one is due. -/
theorem head_ne_of_spansExpr {kind : TokenKind} (hspans : spansExpr true 0 (ts.map (·.kind)) = true)
    (hkind : ∀ ks, spansExpr true 0 (kind :: ks) = false) :
    (ts ++ us).head?.map (·.kind) ≠ some kind := by
  cases ts with
  | nil => cases hspans
  | cons x ts =>
    intro hx
    have hfalse := hkind (ts.map (·.kind))
    rw [← Option.some.inj hx] at hfalse
    exact Bool.noConfusion (hspans.symm.trans hfalse)

theorem operands_of_rounds {n : Nat} {acc terms : List Term}
    (hspans : spansExpr true 0 (ts.map (·.kind)) = true) (hclose : close.kind = .rBrack)
    (hs : s.rest = ts ++ close :: rest) (h : rounds (unionTerm type) n acc s = .ok (terms, s')) :
    ∃ (operands : List (List TokenKind)) (qs : List Token) (us : List Term), operands ≠ [] ∧
      (∀ o ∈ operands, TypeOperand o) ∧
      ts.map (·.kind) = [.pipe].intercalate operands ++ qs.map (·.kind) ∧
      spansExpr false 0 (qs.map (·.kind)) = true ∧ s'.rest = qs ++ close :: rest ∧
      terms = acc ++ us ∧ us ≠ [] := by
  induction n generalizing ts acc s with
  | zero => exact absurd h failHere_ok
  | succ n ih =>
    obtain ⟨r, s₁, hterm, h₁⟩ := bind_ok h
    obtain ⟨_, b⟩ := s
    subst hs
    obtain ⟨t, s₂, htype, hmore⟩ :=
      unionTerm_ok (head_ne_of_spansExpr hspans fun _ => rfl) hterm
    obtain ⟨os, qs, rfl, hos, hqs, hs₂, -⟩ := operand_of_typeWithin hspans hclose htype
    rcases hmore with ⟨bar, hbehind, hbar, rfl⟩ | ⟨rfl, rfl⟩
    · obtain ⟨qs, rfl, hs₁⟩ :=
        exists_cons_of_kind hclose (by rw [hbar]; decide) (hs₂.symm.trans hbehind)
      rw [map_cons, hbar] at hqs
      obtain ⟨operands, qs', us, hne, hall, heq, hqs', hs', rfl, -⟩ := ih hqs hs₁ h₁
      refine ⟨os.map (·.kind) :: operands, qs', ⟨false, t⟩ :: us, by simp,
        forall_mem_cons.2 ⟨hos, hall⟩, ?_, hqs', hs', by simp, by simp⟩
      obtain ⟨o, operands, rfl⟩ := exists_cons_of_ne_nil hne
      rw [map_append, map_cons, hbar, heq, intercalate_cons_cons]
      simp
    · obtain ⟨rfl, rfl⟩ := pure_ok h₁
      exact ⟨[os.map (·.kind)], qs, [⟨false, t⟩], by simp, by simpa using hos, by simp, hqs, hs₂,
        rfl, by simp⟩

/-- One group of a list of type parameters, or one more name of a group. -/
def paramRound (state : List TypeParam × List String × Bool) :
    Parser ((List TypeParam × List String × Bool) ⊕ (List TypeParam × List String × Bool)) := do
  let (groups, waiting, comma) := state
  if ← isAt .rBrack then return .inr (groups, waiting, comma)
  let names := waiting ++ [← identifier]
  if ← eat .comma then return .inl (groups, names, true)
  let group : TypeParam := ⟨names, ← constraint type⟩
  if ← eat .comma then return .inl (groups ++ [group], [], true)
  else return .inr (groups ++ [group], [], false)

theorem typeParamList_eq :
    typeParamList = (do
      let _ ← expect .lBrack
      let (groups, waiting, comma) ← loop paramRound ([], [], false)
      if !waiting.isEmpty then failHere .missingConstraint
      let _ ← expect .rBrack
      return (groups, comma)) :=
  rfl

/-- What is read as a constraint behind a name and a star: a pointer to an operand, or a union. -/
theorem constraint_ok {c : TypeExpr} (hstar : star.kind = .star)
    (hspans : spansExpr true 0 (ts.map (·.kind)) = true) (hclose : close.kind = .rBrack)
    (h : constraint type ⟨star :: (ts ++ close :: rest), b⟩ = .ok (c, s')) :
    ∃ qs, spansExpr false 0 (qs.map (·.kind)) = true ∧ s'.rest = qs ++ close :: rest ∧
      ((∃ elem, c = .pointer elem ∧ isTypeLiteral elem = false) ∨
        ∃ operands : List (List TokenKind), 2 ≤ operands.length ∧ (∀ o ∈ operands, TypeOperand o) ∧
          ts.map (·.kind) = [.pipe].intercalate operands ++ qs.map (·.kind)) := by
  rw [constraint_eq] at h
  obtain ⟨terms, s₁, hterms, h₁⟩ := bind_ok h
  obtain ⟨rfl, rfl⟩ := pure_ok h₁
  obtain ⟨r, s₂, hterm, h₂⟩ := round_of_loop hterms
  obtain ⟨t, s₃, htype, hmore⟩ := unionTerm_ok (by simp [hstar]) hterm
  obtain ⟨elem, helem, rfl⟩ := typeWithin_star_ok htype hstar
  obtain ⟨os, qs, rfl, hos, hqs, hs₃, hliteral⟩ := operand_of_typeWithin hspans hclose helem
  rcases hmore with ⟨bar, hbehind, hbar, rfl⟩ | ⟨rfl, rfl⟩
  · obtain ⟨qs, rfl, hs₂⟩ :=
      exists_cons_of_kind hclose (by rw [hbar]; decide) (hs₃.symm.trans hbehind)
    rw [map_cons, hbar] at hqs
    obtain ⟨operands, qs', us, hne, hall, heq, hqs', hs', -, -⟩ :=
      operands_of_rounds hqs hclose hs₂ h₂
    obtain ⟨o, operands, rfl⟩ := exists_cons_of_ne_nil hne
    refine ⟨qs', hqs', hs', .inr ⟨os.map (·.kind) :: o :: operands, by simp,
      forall_mem_cons.2 ⟨hos, hall⟩, ?_⟩⟩
    rw [map_append, map_cons, hbar, heq, intercalate_cons_cons]
    simp
  · obtain ⟨rfl, rfl⟩ := pure_ok h₂
    exact ⟨qs, hqs, hs₃, .inl ⟨elem, rfl, hliteral⟩⟩

/-- The group of a name and a star, and what follows it. -/
theorem paramRound_ok
    {r : (List TypeParam × List String × Bool) ⊕ (List TypeParam × List String × Bool)}
    (hx : x.kind = .ident) (hstar : star.kind = .star) (hs : s.rest = x :: star :: us)
    (h : paramRound ([], [], false) s = .ok (r, s')) :
    ∃ name c b s₁, constraint type ⟨star :: us, b⟩ = .ok (c, s₁) ∧
      ((∃ comma, s₁.rest = comma :: s'.rest ∧ comma.kind = .comma) ∨
        s₁ = s' ∧ r = .inr ([⟨[name], c⟩], [], false)) := by
  obtain ⟨closed, s₁, hat, h₁⟩ := bind_ok h
  obtain ⟨rfl, rfl⟩ := isAt_ok hat
  rw [hs, head?_cons, map_some, hx] at h₁
  obtain ⟨name, s₂, hname, h₂⟩ := bind_ok h₁
  obtain ⟨_, hs₂, -⟩ := identifier_ok hname
  obtain ⟨-, hs₂⟩ := List.cons.inj (hs.symm.trans hs₂)
  obtain ⟨more, s₃, hmore, h₃⟩ := bind_ok h₂
  rcases eat_ok hmore with ⟨rfl, comma, hs₃, hkind⟩ | ⟨rfl, rfl, -⟩
  · rw [← (List.cons.inj (hs₂.trans hs₃)).1, hstar] at hkind
    cases hkind
  obtain ⟨c, s₄, hc, h₄⟩ := bind_ok h₃
  obtain ⟨_, b⟩ := s₃
  subst hs₂
  obtain ⟨last, s₅, hlast, h₅⟩ := bind_ok h₄
  rcases eat_ok hlast with ⟨rfl, comma, hs₅, hkind⟩ | ⟨rfl, rfl, -⟩
  · obtain ⟨rfl, rfl⟩ := pure_ok h₅
    exact ⟨name, c, b, s₄, hc, .inl ⟨comma, hs₅, hkind⟩⟩
  · obtain ⟨rfl, rfl⟩ := pure_ok h₅
    exact ⟨name, c, b, s', hc, .inr ⟨rfl, rfl⟩⟩

theorem starUnion_of_typeParamList {l : Token} {r : List TypeParam × Bool} (hx : x.kind = .ident)
    (hstar : star.kind = .star) (hspans : spansExpr true 0 (ts.map (·.kind)) = true)
    (hclose : close.kind = .rBrack)
    (h : typeParamList ⟨l :: x :: star :: (ts ++ close :: rest), b⟩ = .ok (r, s'))
    (hlength : readsAsLength r.1 r.2 = false) : StarUnion (.ident :: .star :: ts.map (·.kind)) := by
  rw [typeParamList_eq] at h
  obtain ⟨_, s₁, hopen, h₁⟩ := bind_ok h
  obtain ⟨hs₁, -⟩ := expect_ok hopen
  obtain ⟨⟨groups, waiting, comma⟩, s₂, hloop, h₂⟩ := bind_ok h₁
  obtain ⟨_, s₃, hround, h₃⟩ := round_of_loop hloop
  obtain ⟨name, c, b₁, s₄, hc, hbehind⟩ := paramRound_ok hx hstar (List.cons.inj hs₁).2.symm hround
  obtain ⟨qs, hqs, hs₄, hshape⟩ := constraint_ok hstar hspans hclose hc
  rcases hbehind with ⟨comma, hcomma, hkind⟩ | ⟨rfl, rfl⟩
  · -- no comma stands outside parentheses
    obtain ⟨qs, rfl, -⟩ :=
      exists_cons_of_kind hclose (by rw [hkind]; decide) (hs₄.symm.trans hcomma)
    rw [map_cons, hkind] at hqs
    cases hqs
  cases h₃
  obtain ⟨_, s₅, hend, h₅⟩ := bind_ok h₂
  obtain ⟨hs₅, hkind⟩ := expect_ok hend
  obtain ⟨rfl, rfl⟩ := pure_ok h₅
  obtain rfl : qs = [] := by
    cases qs with
    | nil => rfl
    | cons q qs =>
      rw [hs₄] at hs₅
      rw [map_cons, (List.cons.inj hs₅).1, hkind] at hqs
      cases hqs
  rcases hshape with ⟨elem, rfl, hliteral⟩ | ⟨operands, htwo, hall, heq⟩
  · rw [readsAsLength, hliteral] at hlength
    cases hlength
  · exact ⟨operands, htwo, hall, by rw [heq, map_nil, append_nil]⟩

/-! ## A union in place of a length -/

theorem exists_parses_operand (h : TypeOperand ks) (hps : ps.map (·.kind) = ks)
    (hends : EndsType us) (hdepth : ps.length ≤ depth) :
    ∃ t, Parses (typeWithin depth) (ps ++ us) us t := by
  induction h generalizing ps us depth with
  | name =>
    obtain ⟨x, rfl, hx⟩ := map_eq_singleton_iff.1 hps
    obtain ⟨depth, rfl⟩ := Nat.exists_eq_add_of_lt hdepth
    exact ⟨.name x.text, .typeWithin_name hx (hends.head_ne rfl) (hends.head_ne rfl) _⟩
  | qualified =>
    obtain ⟨x, _, rfl, hx, hps⟩ := map_eq_cons_iff.1 hps
    obtain ⟨dot, _, rfl, hdot, hps⟩ := map_eq_cons_iff.1 hps
    obtain ⟨y, rfl, hy⟩ := map_eq_singleton_iff.1 hps
    obtain ⟨depth, rfl⟩ := Nat.exists_eq_add_of_lt hdepth
    have hname : Parses (typeName (typeWithin (2 + depth))) ([x, dot, y] ++ us) us
        (.qualified x.text y.text) := by
      rw [typeName_eq]
      exact (Parses.identifier hx).bind ((Parses.eat_true hdot).bind
        ((Parses.identifier hy).bind (.typeArgs_none (hends.head_ne rfl))))
    exact ⟨_, .typeStep_ident (congrArg some hx) hname⟩
  | paren h ih =>
    obtain ⟨l, _, rfl, hl, hps⟩ := map_eq_cons_iff.1 hps
    obtain ⟨ps, _, rfl, hinner, hps⟩ := map_eq_append_iff.1 hps
    obtain ⟨r, rfl, hr⟩ := map_eq_singleton_iff.1 hps
    obtain ⟨depth, rfl⟩ : ∃ d, depth = d + 1 := ⟨depth - 1, by simp at hdepth; omega⟩
    have hends' : EndsType (r :: us) := .cons (by rw [hr]; rfl)
    obtain ⟨t, ht⟩ := ih hinner hends' (show ps.length ≤ depth by simp at hdepth; omega)
    refine ⟨.paren t, ?_⟩
    rw [cons_append, append_assoc]
    exact .peek_next hl rfl (ht.bind ((Parses.expect hr).bind .pure))

theorem exists_parses_unionTerm (h : TypeOperand ks) (hps : ps.map (·.kind) = ks)
    (hends : EndsType us) :
    ∃ t, Parses type (ps ++ us) us t ∧ Parses (eat .tilde) (ps ++ us) (ps ++ us) false := by
  obtain ⟨t, ht⟩ := exists_parses_operand h hps hends
    (show ps.length ≤ (ps ++ us).length + 1 by rw [length_append]; omega)
  refine ⟨t, .type ht, .eat_false ?_⟩
  cases h with
  | name | qualified | paren =>
    obtain ⟨x, _, rfl, hx, -⟩ := map_eq_cons_iff.1 hps
    simp [hx]

/-- Operands that can be types, with bars between them, are read as the terms of a union. -/
theorem exists_parses_operands (hne : operands ≠ [])
    (hall : ∀ o ∈ operands, TypeOperand o) (hps : ps.map (·.kind) = [.pipe].intercalate operands)
    (hends : EndsType us) (hpipe : us.head?.map (·.kind) ≠ some .pipe) {n : Nat}
    (hn : ps.length < n) (acc : List Term) :
    ∃ terms, terms ≠ [] ∧ Parses (rounds (unionTerm type) n acc) (ps ++ us) us (acc ++ terms) := by
  obtain ⟨n, rfl⟩ : ∃ m, n = m + 1 := ⟨n - 1, by omega⟩
  induction operands generalizing ps n acc with
  | nil => exact absurd rfl hne
  | cons o operands ih =>
    obtain ⟨ho, hall⟩ := forall_mem_cons.1 hall
    cases operands with
    | nil =>
      rw [intercalate_singleton] at hps
      obtain ⟨t, ht, htilde⟩ := exists_parses_unionTerm ho hps hends
      exact ⟨[⟨false, t⟩], by simp, .rounds_inr
        (htilde.bind (ht.bind ((Parses.eat_false hpipe).bind .pure)))⟩
    | cons o' operands =>
      rw [intercalate_cons_cons, append_assoc] at hps
      obtain ⟨os, _, rfl, hos, hps⟩ := map_eq_append_iff.1 hps
      obtain ⟨bar, qs, rfl, hbar, hqs⟩ := map_eq_cons_iff.1 hps
      obtain ⟨n, rfl⟩ : ∃ m, n = m + 1 := ⟨n - 1, by simp at hn; omega⟩
      have hends' : EndsType (bar :: (qs ++ us)) := .cons (by rw [hbar]; rfl)
      obtain ⟨t, ht, htilde⟩ := exists_parses_unionTerm ho hos hends'
      obtain ⟨terms, -, hterms⟩ :=
        ih (by simp) hall hqs (acc ++ [⟨false, t⟩]) n (by simp at hn; omega)
      refine ⟨⟨false, t⟩ :: terms, by simp, ?_⟩
      rw [append_assoc] at hterms ⊢
      exact .rounds_inl
        (htilde.bind (ht.bind ((Parses.eat_true hbar).bind .pure))) hterms

/-- A star, an operand, a bar and more operands are read as a union. -/
theorem exists_parses_constraint {bar : Token} {o : List TokenKind}
    {os qs : List Token} (hstar : star.kind = .star)
    (hbar : bar.kind = .pipe) (ho : TypeOperand o) (hos : os.map (·.kind) = o) (hne : operands ≠ [])
    (hall : ∀ o ∈ operands, TypeOperand o) (hqs : qs.map (·.kind) = [.pipe].intercalate operands)
    (hends : EndsType us) (hpipe : us.head?.map (·.kind) ≠ some .pipe) :
    ∃ terms, Parses (constraint type) (star :: (os ++ bar :: (qs ++ us))) us (.union terms) := by
  have hends' : EndsType (bar :: (qs ++ us)) := .cons (by rw [hbar]; rfl)
  obtain ⟨t, ht⟩ := exists_parses_operand ho hos hends'
    (show os.length ≤ (star :: (os ++ bar :: (qs ++ us))).length by simp; omega)
  have htype : Parses type (star :: (os ++ bar :: (qs ++ us))) (bar :: (qs ++ us)) (.pointer t) := by
    refine .type (Parses.peek.bind ?_)
    rw [head?_cons, map_some, hstar]
    exact Parses.next?.bind (ht.bind .pure)
  obtain ⟨terms, hterms, hloop⟩ := exists_parses_operands hne hall hqs hends hpipe
    (show qs.length < (star :: (os ++ bar :: (qs ++ us))).length by simp; omega)
    [⟨false, .pointer t⟩]
  have hunion : ofTerms ([⟨false, .pointer t⟩] ++ terms)
      = .union ([⟨false, .pointer t⟩] ++ terms) := by
    obtain ⟨u, terms, rfl⟩ := exists_cons_of_ne_nil hterms
    rfl
  have hfirst : Parses (unionTerm type []) (star :: (os ++ bar :: (qs ++ us))) (qs ++ us)
      (.inl ([] ++ [⟨false, .pointer t⟩])) :=
    (Parses.eat_false (by simp [hstar])).bind (htype.bind ((Parses.eat_true hbar).bind .pure))
  refine ⟨[⟨false, .pointer t⟩] ++ terms, ?_⟩
  rw [constraint_eq, ← hunion]
  exact (Parses.loop (.rounds_inl hfirst hloop)).bind .pure

/-- A name, a star and operands with bars between them are read as a type parameter whose constraint
is a union. -/
theorem exists_parses_starUnion {es : List Token} (h : StarUnion (es.map (·.kind))) {l : Token}
    (hl : l.kind = .lBrack) (hclose : close.kind = .rBrack) :
    ∃ name terms, Parses typeParamList (l :: (es ++ close :: rest)) rest
      ([⟨[name], .union terms⟩], false) := by
  obtain ⟨operands, htwo, hall, hes⟩ := h
  obtain ⟨x, _, rfl, hx, hes⟩ := map_eq_cons_iff.1 hes
  obtain ⟨star, ts, rfl, hstar, hts⟩ := map_eq_cons_iff.1 hes
  obtain _ | ⟨o, _ | ⟨o', operands⟩⟩ := operands
  · cases htwo
  · simp at htwo
  obtain ⟨ho, hall⟩ := forall_mem_cons.1 hall
  rw [intercalate_cons_cons, append_assoc] at hts
  obtain ⟨os, _, rfl, hos, hts⟩ := map_eq_append_iff.1 hts
  obtain ⟨bar, qs, rfl, hbar, hqs⟩ := map_eq_cons_iff.1 hts
  have hends : EndsType (close :: rest) := .cons (by rw [hclose]; rfl)
  obtain ⟨terms, hterms⟩ := exists_parses_constraint hstar hbar ho hos (by simp) hall hqs hends
    (by simp [hclose])
  have hround : Parses (paramRound ([], [], false))
      (x :: star :: (os ++ bar :: (qs ++ close :: rest))) (close :: rest)
      (.inr ([⟨[x.text], .union terms⟩], [], false)) := by
    refine Parses.isAt.bind ?_
    rw [head?_cons, map_some, hx]
    exact (Parses.identifier hx).bind ((Parses.eat_false (by simp [hstar])).bind
      (hterms.bind ((Parses.eat_false (by simp [hclose])).bind .pure)))
  refine ⟨x.text, terms, ?_⟩
  rw [typeParamList_eq, cons_append, cons_append, append_assoc, cons_append]
  exact (Parses.expect hl).bind ((Parses.loop (.rounds_inr hround)).bind
    ((Parses.expect hclose).bind .pure))

/-! ## The bracket behind a declared name -/

/-- Behind a name, only a star lets a length look like type parameters. -/
theorem exists_star_of_opensTypeParams (hspans : spansExpr true 0 (ts.map (·.kind)) = true)
    (hclose : close.kind = .rBrack)
    (h : opensTypeParams ((ts ++ close :: rest)[0]?.map (·.kind))
      ((ts ++ close :: rest)[1]?.map (·.kind)) = true) :
    ∃ x star us, ts = x :: star :: us ∧ x.kind = .ident ∧ star.kind = .star ∧
      spansExpr true 0 (us.map (·.kind)) = true := by
  rcases ts with _ | ⟨x, _ | ⟨y, us⟩⟩
  · cases hspans
  · simp [opensTypeParams, hclose] at h
  · have hx : x.kind = .ident := by
      simp only [opensTypeParams, Bool.and_eq_true] at h
      simpa using h.1
    rw [map_cons, map_cons, hx] at hspans
    rcases spansExpr_false_cons hspans with ⟨hy, hus⟩ | ⟨hy, -⟩ | ⟨-, hdepth, -⟩ | ⟨-, hdepth, -⟩
    · refine ⟨x, y, us, rfl, hx, ?_, hus⟩
      cases hk : y.kind <;> simp_all [opensTypeParams, TokenKind.isLengthOperator]
    · simp [opensTypeParams, hy] at h
    · exact absurd rfl hdepth
    · exact absurd rfl hdepth

theorem behindBracket_star :
    behindBracket (some .ident) (some .star) = (do
      let groups ← attempt? typeParamList fun (groups, comma) _ => !readsAsLength groups comma
      return (groups.map (·.1)).getD []) :=
  rfl

section

variable {l : Token} (hl : l.kind = .lBrack) (hclose : close.kind = .rBrack)

include hl

theorem parses_typeParams_of_behindBracket {vs : List Token} {ps : List TypeParam}
    (h : Parses (behindBracket (us[0]?.map (·.kind)) (us[1]?.map (·.kind))) (l :: us) vs ps) :
    Parses typeParams (l :: us) vs ps := by
  rw [typeParams_eq]
  refine Parses.isAt.bind ?_
  rw [head?_cons, map_some, hl]
  exact Parses.peekAt.bind (Parses.peekAt.bind h)

include hclose

/-- Behind a declared name a length is left for an array, but for a union with a star. -/
theorem parses_typeParams_nil (hspans : spansExpr true 0 (ts.map (·.kind)) = true)
    (hunion : ¬ StarUnion (ts.map (·.kind))) :
    Parses typeParams (l :: (ts ++ close :: rest)) (l :: (ts ++ close :: rest)) [] := by
  apply parses_typeParams_of_behindBracket hl
  by_cases hopens : opensTypeParams ((ts ++ close :: rest)[0]?.map (·.kind))
      ((ts ++ close :: rest)[1]?.map (·.kind)) = true
  · obtain ⟨x, star, us, rfl, hx, hstar, hus⟩ := exists_star_of_opensTypeParams hspans hclose hopens
    rw [map_cons, map_cons, hx, hstar] at hunion
    have hnone : Parses (attempt? typeParamList fun r _ => !readsAsLength r.1 r.2)
        (l :: (x :: star :: us ++ close :: rest)) (l :: (x :: star :: us ++ close :: rest)) none := by
      refine .attempt?_none fun behind r s hok => ?_
      by_contra hkeep
      exact hunion (starUnion_of_typeParamList hx hstar hus hclose hok (by simpa using hkeep))
    change Parses (behindBracket (some x.kind) (some star.kind)) _ _ _
    rw [hx, hstar, behindBracket_star]
    exact hnone.bind .pure
  · rw [behindBracket, if_pos (by simpa using hopens)]
    exact .pure

/-- A union with a star is read as a type parameter. -/
theorem exists_parses_typeParams (hunion : StarUnion (ts.map (·.kind))) :
    ∃ name terms, Parses typeParams (l :: (ts ++ close :: rest)) rest [⟨[name], .union terms⟩] := by
  obtain ⟨name, terms, hparses⟩ : ∃ name terms, Parses typeParamList
      (l :: (ts ++ close :: rest)) rest ([⟨[name], .union terms⟩], false) :=
    exists_parses_starUnion hunion hl hclose
  refine ⟨name, terms, parses_typeParams_of_behindBracket hl ?_⟩
  obtain ⟨operands, -, -, hts⟩ := hunion
  obtain ⟨x, _, rfl, hx, hts⟩ := map_eq_cons_iff.1 hts
  obtain ⟨star, us, rfl, hstar, -⟩ := map_eq_cons_iff.1 hts
  change Parses (behindBracket (some x.kind) (some star.kind)) _ _ _
  rw [hx, hstar, behindBracket_star]
  exact (Parses.attempt?_some hparses fun _ => rfl).bind .pure

end

end Parser

end Stubwright
