import Stubwright.Proofs.Accounting
import Stubwright.Proofs.Lockstep.Types

/-!
# Reading source files in lockstep

A source file is read from corresponding tokens alike, but for the places of its parts.  Tokens may
follow that stand for more declarations: the second reading then goes on with those.

* `follows_file`: a file is read alike up to the seam.
-/

namespace Stubwright

open List

variable {ts ts' : List Token}

/-! ## Parts without their places -/

def ImportSpec.unplaced (i : ImportSpec) : ImportSpec :=
  { i with span := default }

def ImportDecl.unplaced (d : ImportDecl) : ImportDecl where
  span := default
  lparen := d.lparen.map fun _ => default
  rparen := d.rparen.map fun _ => default
  specs := d.specs.map (·.unplaced)

def TypeSpec.unplaced (s : TypeSpec) : TypeSpec :=
  { s with span := default }

def FuncDecl.unplaced (d : FuncDecl) : FuncDecl :=
  { d with body := d.body.map fun _ => default, span := default }

/-- A declaration without the places of its parts. -/
def Decl.unplaced : Decl → Decl
  | .types _ specs => .types default (specs.map (·.unplaced))
  | .func d => .func d.unplaced
  | .value _ => .value default

/-! ## The lengths of arrays in declarations -/

section

variable (f : String → String)

def TypeParam.withLengths (p : TypeParam) : TypeParam :=
  { p with constraint := p.constraint.withLengths f }

def TypeSpec.withLengths (s : TypeSpec) : TypeSpec :=
  { s with typeParams := s.typeParams.map (·.withLengths f), type := s.type.withLengths f }

def FuncDecl.withLengths (d : FuncDecl) : FuncDecl :=
  { d with typeParams := d.typeParams.map (·.withLengths f), sig := d.sig.withLengths f }

/-- A declaration with `f` applied to the lengths of its arrays. -/
def Decl.withLengths : Decl → Decl
  | .types span specs => .types span (specs.map (·.withLengths f))
  | .func d => .func (d.withLengths f)
  | .value span => .value span

theorem TypeExpr.unparen_withLengths (t : TypeExpr) :
    (t.withLengths f).unparen = t.unparen.withLengths f := by
  fun_induction TypeExpr.unparen t with
  | case1 elem ih => rw [TypeExpr.withLengths, TypeExpr.unparen, ih]
  | case2 t hne =>
    cases t with
    | paren elem => exact absurd rfl (hne elem)
    | _ =>
      rw [TypeExpr.withLengths, TypeExpr.unparen]
      simp

namespace Parser

theorem isTypeLiteral_withLengths (t : TypeExpr) :
    isTypeLiteral (t.withLengths f) = isTypeLiteral t := by
  fun_induction isTypeLiteral t with
  | case1 elem ih => rw [TypeExpr.withLengths, isTypeLiteral, ih]
  | case7 t => cases t <;> simp_all [TypeExpr.withLengths, isTypeLiteral]
  | _ => rw [TypeExpr.withLengths, isTypeLiteral]

theorem readsAsLength_withLengths (groups : List TypeParam) (comma : Bool) :
    readsAsLength (groups.map (·.withLengths f)) comma = readsAsLength groups comma := by
  rcases groups with _ | ⟨⟨names, c⟩, _ | ⟨group, groups⟩⟩
  · rfl
  · rcases names with _ | ⟨name, _ | ⟨other, names⟩⟩
    · simp [readsAsLength, TypeParam.withLengths]
    · cases c <;>
        simp [readsAsLength, TypeParam.withLengths, TypeExpr.withLengths, isTypeLiteral_withLengths]
    · simp [readsAsLength, TypeParam.withLengths]
  · simp [readsAsLength]

theorem receiverArg?_withLengths (t : TypeExpr) :
    receiverArg? (t.withLengths f) = receiverArg? t := by
  cases t <;> simp [receiverArg?, TypeExpr.withLengths]

theorem receiverBase?_withLengths (t : TypeExpr) :
    receiverBase? (t.withLengths f) = receiverBase? t := by
  cases t with
  | generic base args =>
    cases base with
    | name n =>
      have hargs : (args.map (·.withLengths f)).mapM receiverArg? = args.mapM receiverArg? := by
        rw [mapM_map]
        exact congrArg (fun g => args.mapM g) (funext (receiverArg?_withLengths f))
      simp [receiverBase?, TypeExpr.withLengths, hargs]
    | _ => simp [receiverBase?, TypeExpr.withLengths]
  | _ => simp [receiverBase?, TypeExpr.withLengths]

theorem receiver?_withLengths (ps : List Param) :
    receiver? (ps.map (·.withLengths f)) = receiver? ps := by
  rcases ps with _ | ⟨⟨names, t⟩, _ | ⟨p, ps⟩⟩
  · rfl
  · rw [map_singleton, Param.withLengths, receiver?, receiver?, TypeExpr.unparen_withLengths]
    generalize t.unparen = base
    have hbase := receiverBase?_withLengths f base
    cases base with
    | pointer elem =>
      simp only [TypeExpr.withLengths, TypeExpr.unparen_withLengths, receiverBase?_withLengths]
    | _ => simp_all only [TypeExpr.withLengths]
  · simp [receiver?]

end Parser

end

namespace Parser

open Cursor

variable {P : Pairing} {n i b : Nat} {s s₁ : Cursor} {recv : Option Receiver} {kind : TokenKind}
  {s' : Cursor}

/-! ## Imports -/

theorem lockstep_importName :
    Lockstep P (Near P i) importName importName fun name name' s => name' = name ∧ s.Near P i := by
  refine .isAt_bind (fun s hs => .inl hs.1) ?_ ?_
  · refine .of_imp ?_ fun s hs => hs.1
    exact .identifier_bind fun name =>
      .pure fun s hs => ⟨rfl, hs.mono (Nat.sub_le i 1)⟩
  · refine .of_imp ?_ fun s hs => hs.1
    exact .eat_bind (by decide) (.pure fun s hs => ⟨rfl, hs.mono (Nat.sub_le i 1)⟩)
      (.pure fun s hs => ⟨rfl, hs⟩)

theorem tracks_importSpec : Tracks P n ImportSpec.unplaced importSpec importSpec := by
  intro i hi
  refine .ahead_bind fun start start' => ?_
  refine lockstep_importName.bind fun name name' => .assume fun hname => ?_
  subst hname
  refine .peek_bind (fun s hs => hs.1) fun kind => .ite (fun _ => ?_) fun htag => ?_
  · exact .failHere_bind
  · refine .next?_bind (fun s hs => ⟨hs.1, ?_⟩) fun t t' ht => ?_
    · rw [hs.2]
      exact exists_of_isTag (by simpa using htag)
    · refine .behind_bind fun stop stop' => .result ?_ (Nat.le_refl _)
      rw [ImportSpec.unplaced, ImportSpec.unplaced, Option.map_some, Option.map_some, P.text_eq ht]

theorem tracks_grouped {α γ : Type} {view : α → γ} {item item' : Parser α}
    (hitem : Tracks P n view item item') (hfunc : P.OpensFunc)
    (hseam : FailAtSeam P .rParen item item') :
    Tracks P n (fun r => (r.1.isSome, r.2.map view)) (grouped item) (grouped item') := by
  intro i hi
  refine .isAt_bind (fun s hs => .inl hs.1) ?_ ?_
  · refine .of_imp ?_ fun s hs => hs.1
    refine .expect_bind (by decide) fun opening opening' _ => ?_
    refine .bind (Q := fun as as' s => as'.map view = as.map view ∧ s.Near P (i - 1)) ?_
      fun as as' => ?_
    · refine .of_imp (.itemsUntil (C := fun _ => True)
        (fun _ _ => .inr (head?_more_ne hfunc (by decide))) fun j hj => ?_) fun s hs => ⟨trivial, hs.2⟩
      refine (hitem.ended hseam (by omega) fun a => a).mono (fun s hs => hs.1.2) ?_
      rintro _ _ s ⟨⟨a, a', rfl, rfl, ha⟩, hs⟩
      exact ⟨rfl, ha, ⟨trivial, hs⟩, by simp⟩
    · refine .assume fun has => .expect_bind (by decide) fun closing closing' _ =>
        .result ?_ (by omega)
      rw [has]
      rfl
  · refine .of_imp ?_ fun s hs => hs.1
    refine hitem.bind hi fun a a' ha => .result ?_ (Nat.le_refl _)
    rw [map_singleton, map_singleton, ha]

theorem tracks_importDecl (hfunc : P.OpensFunc) :
    Tracks P n ImportDecl.unplaced importDecl importDecl := by
  intro i hi
  have hseam : FailAtSeam P .rParen importSpec importSpec :=
    failAtSeam_of_error hfunc (fun _ => ⟨_, rfl⟩) fun _ _ _ _ _ => ⟨_, rfl⟩
  refine .ahead_bind fun start start' => .expect_bind (by decide) fun _ _ _ => ?_
  refine (tracks_grouped tracks_importSpec hfunc hseam).bind (Nat.le_refl _) fun r r' hr => ?_
  obtain ⟨parens, specs⟩ := r
  obtain ⟨parens', specs'⟩ := r'
  obtain ⟨hparens, hspecs⟩ := Prod.mk.inj hr
  refine .behind_bind fun stop stop' => .result ?_ (by omega)
  have hspan : ∀ g : Token × Token → Span, (parens'.map g).map (fun _ => (default : Span)) =
      (parens.map g).map fun _ => default := by
    intro g
    cases parens <;> cases parens' <;> simp_all
  rw [ImportDecl.unplaced, ImportDecl.unplaced, hspan, hspan]
  exact congrArg _ hspecs

/-! ## Type declarations -/

def paramState (P : Pairing) (r : List TypeParam × List String × Bool) :
    List TypeParam × List String × Bool :=
  (r.1.map (·.withLengths P.view), r.2)

theorem tracks_typeParamList (hblocks : Blocks P) :
    Tracks P n (Prod.map (List.map (·.withLengths P.view)) id) typeParamList typeParamList := by
  intro i hi
  refine .expect_bind (by decide) fun _ _ _ => ?_
  refine .bind (Q := fun r r' s => paramState P r' = paramState P r ∧ s.Near P (i - 1)) ?_
    fun r r' => ?_
  · refine .loop (V := fun r r' => paramState P r' = paramState P r) (C := Clear P) ?_ rfl
    intro j hj r r' hr
    obtain ⟨groups, waiting, comma⟩ := r
    obtain ⟨groups', waiting', comma'⟩ := r'
    obtain ⟨hgroups, hrest⟩ := Prod.mk.inj hr
    cases hrest
    refine .isAt_bind (fun s hs => .inl hs.1) (.pure fun s hs => ?_) ?_
    · exact .done ⟨hr, hs.1.1, Nat.lt_of_lt_of_le hs.1.2 hj⟩
    refine .of_imp ?_ fun s hs => hs.1
    refine .identifier_bind fun name => .eat_bind (by decide) ?_ ?_
    · refine .pure fun s hs => .again ?_ hs.1 (Nat.lt_of_lt_of_le hs.2 (by omega))
      rw [paramState, paramState, hgroups]
    · refine (tracks_constraint (tracks_type hblocks n)).bind (by omega) fun c c' hc => ?_
      have hnext : (groups' ++ [(⟨waiting ++ [name], c'⟩ : TypeParam)]).map (·.withLengths P.view) =
          (groups ++ [(⟨waiting ++ [name], c⟩ : TypeParam)]).map (·.withLengths P.view) := by
        rw [map_append, map_append, hgroups, map_singleton, map_singleton,
          TypeParam.withLengths, TypeParam.withLengths, hc]
      refine .eat_bind (by decide) (.pure fun s hs => ?_) (.pure fun s hs => ?_)
      · refine .again ?_ hs.1 (Nat.lt_of_lt_of_le hs.2 (by omega))
        rw [paramState, paramState, hnext]
      · refine .done ⟨?_, hs.1, Nat.lt_of_lt_of_le hs.2 (by omega)⟩
        rw [paramState, paramState, hnext]
  · obtain ⟨groups, waiting, comma⟩ := r
    obtain ⟨groups', waiting', comma'⟩ := r'
    refine .assume fun hr => ?_
    obtain ⟨hgroups, hrest⟩ := Prod.mk.inj hr
    cases hrest
    refine .ite (fun _ => .failHere_bind) fun _ => ?_
    refine .expect_bind (by decide) fun _ _ _ => .result ?_ (by omega)
    rw [Prod.map, Prod.map, hgroups]

/-- The two tokens behind a bracket have the same kinds, unless the first of them is a semicolon. -/
theorem kinds_behindBracket (hs : s.Beside P s') (hk : s.kind? = some .lBrack) :
    s'.rest[1]?.map (·.kind) = s.rest[1]?.map (·.kind) ∧
      (s.rest[1]?.map (·.kind) = some .semi ∨
        s'.rest[2]?.map (·.kind) = s.rest[2]?.map (·.kind)) := by
  rcases hs.cases (clear_of_kind? hk) with ⟨hrest, -⟩ | ⟨t, ts, t', ts', hrest, hrest', -, htail, hclear⟩
  · rw [Cursor.kind?, hrest] at hk
    cases hk
  have hkind : t.kind ≠ .semi := by
    rw [kind?_cons hrest] at hk
    rw [Option.some.inj hk]
    decide
  rw [hrest, hrest']
  rcases (htail 0 0).cases (hclear hkind 0) with ⟨hts, hts'⟩ | ⟨u, us, u', us', hts, hts', hu, htail', hclear'⟩
  · obtain rfl : ts = [] := hts
    obtain rfl : ts' = [] := hts'
    exact ⟨rfl, .inr rfl⟩
  obtain rfl : ts = u :: us := hts
  obtain rfl : ts' = u' :: us' := hts'
  refine ⟨congrArg some (P.kind_eq hu), ?_⟩
  by_cases hsemi : u.kind = .semi
  · exact .inl (congrArg some hsemi)
  · have hthird := (htail' 0 0).kind?_eq (hclear' hsemi 0)
    rw [Cursor.kind?, Cursor.kind?, head?_eq_getElem?, head?_eq_getElem?] at hthird
    exact .inr hthird

/-- What stands behind the bracket of a declared name, by the kinds of the next two tokens. -/
def behindBracket (first second : Option TokenKind) : Parser (List TypeParam) := do
  if !opensTypeParams first second then return []
  if second == some .star then
    let groups ← attempt? typeParamList fun (groups, comma) _ => !readsAsLength groups comma
    return (groups.map (·.1)).getD []
  return (← typeParamList).1

theorem typeParams_eq :
    typeParams = (do
      if !(← isAt .lBrack) then return []
      let second ← peekAt 2
      behindBracket (← peekAt 1) second) :=
  rfl

theorem lockstep_behindBracket (hblocks : Blocks P) (first second : Option TokenKind) :
    Lockstep P (Near P i) (behindBracket first second) (behindBracket first second) fun ps ps' s =>
      ps'.map (TypeParam.withLengths P.view) = ps.map (TypeParam.withLengths P.view) ∧ s.Near P i := by
  refine .ite (fun _ => .result rfl (Nat.le_refl i)) fun _ =>
    .ite (fun _ => ?_) fun _ => ?_
  · refine .attempt?_bind (tracks_typeParamList hblocks i (Nat.le_refl i)) ?_ (fun r r' => ?_)
      (.result rfl (Nat.le_refl i))
    · intro r r' s s' _ hr
      obtain ⟨groups, comma⟩ := r
      obtain ⟨groups', comma'⟩ := r'
      obtain ⟨hgroups, hcomma⟩ := Prod.mk.inj hr.1
      obtain rfl : comma' = comma := hcomma
      change (!readsAsLength groups' comma') = !readsAsLength groups comma'
      rw [← readsAsLength_withLengths P.view groups', hgroups, readsAsLength_withLengths]
    · exact .assume fun hr => .result (congrArg Prod.fst hr) (Nat.sub_le i 1)
  · refine (tracks_typeParamList hblocks).bind (Nat.le_refl i) fun r r' hr => ?_
    exact .result (congrArg Prod.fst hr) (Nat.sub_le i 1)

theorem lockstep_typeParams (hblocks : Blocks P) :
    Lockstep P (Near P i) typeParams typeParams fun ps ps' s =>
      ps'.map (TypeParam.withLengths P.view) = ps.map (TypeParam.withLengths P.view) ∧
        s.Near P i := by
  have hpeek : ∀ s : Cursor, (do let second ← peekAt 2; behindBracket (← peekAt 1) second) s =
      behindBracket (s.rest[1]?.map (·.kind)) (s.rest[2]?.map (·.kind)) s := fun _ => rfl
  have hsemi : ∀ second, behindBracket (some .semi) second = pure [] := fun _ => rfl
  have hbracket : Lockstep P (fun s => s.Near P i ∧ s.kind? = some .lBrack)
      (do let second ← peekAt 2; behindBracket (← peekAt 1) second)
      (do let second ← peekAt 2; behindBracket (← peekAt 1) second)
      fun ps ps' s => ps'.map (TypeParam.withLengths P.view) =
        ps.map (TypeParam.withLengths P.view) ∧ s.Near P i := by
    intro s s' hs hnear
    obtain ⟨hfirst, hsecond⟩ := kinds_behindBracket hs hnear.2
    rw [hpeek, hpeek, hfirst]
    rcases hsecond with hfirst | hsecond
    · rw [hfirst, hsemi, hsemi]
      exact Lockstep.result rfl (Nat.le_refl i) s s' hs hnear.1
    · rw [hsecond]
      exact lockstep_behindBracket hblocks _ _ s s' hs hnear.1
  rw [typeParams_eq]
  exact Lockstep.isAt_bind (fun s hs => .inl hs.1) hbracket
    ((Lockstep.result rfl (Nat.le_refl i)).of_imp fun s hs => hs.1)

theorem tracks_typeSpec (hblocks : Blocks P) :
    Tracks P n (fun s => (s.withLengths P.view).unplaced) typeSpec typeSpec := by
  intro i hi
  refine .ahead_bind fun start start' => .identifier_bind fun name => ?_
  refine (lockstep_typeParams hblocks).bind fun ps ps' => .assume fun hps => ?_
  have htype : ∀ isAlias, ∀ j ≤ i - 1, Lockstep P (Near P j)
      (do
        let t ← type
        return ({ name, span := .between start (← behind), typeParams := ps, isAlias, type := t } :
          TypeSpec))
      (do
        let t ← type
        return ({ name, span := .between start' (← behind), typeParams := ps', isAlias, type := t } :
          TypeSpec))
      fun s s' c => (s'.withLengths P.view).unplaced = (s.withLengths P.view).unplaced ∧
        c.Near P (i - 1) := by
    intro isAlias j hj
    refine (tracks_type hblocks j).bind (Nat.le_refl j) fun t t' ht => ?_
    refine .behind_bind fun stop stop' => .result ?_ (by omega)
    rw [TypeSpec.withLengths, TypeSpec.withLengths, TypeSpec.unplaced, TypeSpec.unplaced]
    rw [hps, ht]
  exact .eat_bind (by decide) (htype true _ (Nat.sub_le _ 1)) (htype false _ (Nat.le_refl _))

theorem tracks_typeDecl (hblocks : Blocks P) :
    Tracks P n (fun d => (d.withLengths P.view).unplaced) typeDecl typeDecl := by
  intro i hi
  have hseam : FailAtSeam P .rParen typeSpec typeSpec :=
    failAtSeam_of_error hblocks.func (fun _ => ⟨_, rfl⟩) fun _ _ _ _ _ => ⟨_, rfl⟩
  refine .ahead_bind fun start start' => .expect_bind (by decide) fun _ _ _ => ?_
  refine (tracks_grouped (tracks_typeSpec hblocks) hblocks.func hseam).bind (Nat.le_refl _)
    fun r r' hr => ?_
  obtain ⟨parens, specs⟩ := r
  obtain ⟨parens', specs'⟩ := r'
  refine .behind_bind fun stop stop' => .result ?_ (by omega)
  have hspecs : specs'.map (fun s => (s.withLengths P.view).unplaced) =
      specs.map fun s => (s.withLengths P.view).unplaced := (Prod.mk.inj hr).2
  rw [Decl.withLengths, Decl.withLengths, Decl.unplaced, Decl.unplaced, map_map, map_map]
  exact congrArg _ hspecs

/-! ## Functions -/

theorem tracks_receiver (hblocks : Blocks P) : Tracks P n id receiver receiver := by
  intro i hi
  refine .ahead_bind fun start start' => ?_
  refine (tracks_params (tracks_type hblocks n)).bind hi fun ps ps' hps => ?_
  have hreceiver : receiver? ps' = receiver? ps := by
    rw [← receiver?_withLengths P.view ps', hps, receiver?_withLengths]
  rw [hreceiver]
  cases receiver? ps with
  | none => exact .failAt
  | some r => exact .result rfl (Nat.le_refl _)

/-- Where `H` holds and the first of two readings succeeds, the second one succeeds too, and their
results are related by `Q`. -/
def Follows {α α' : Type} (P : Pairing) (H : Cursor → Prop) (p : Parser α) (p' : Parser α')
    (Q : α → α' → Cursor → Prop) : Prop :=
  ∀ s s' a s₁, s.Beside P s' → H s → p s = .ok (a, s₁) →
    ∃ a' s₁', p' s' = .ok (a', s₁') ∧ s₁.Beside P s₁' ∧ Q a a' s₁

section

variable {α α' β β' : Type} {p : Parser α} {p' : Parser α'} {H H' : Cursor → Prop}
  {Q : α → α' → Cursor → Prop} {R : β → β' → Cursor → Prop} {f : α → Parser β} {f' : α' → Parser β'}
  {kind : TokenKind}

theorem Lockstep.follows (h : Lockstep P H p p' Q) : Follows P H p p' Q := by
  intro s s' a s₁ hs hH hp
  rcases h s s' hs hH with ⟨e, e', he, -⟩ | ⟨a₁, a', s₂, s₁', ha, ha', hs₁, hq⟩
  · rw [he] at hp
    cases hp
  · rw [ha] at hp
    cases hp
    exact ⟨a', s₁', ha', hs₁, hq⟩

namespace Follows

theorem of_imp (h : Follows P H p p' Q) (hH : ∀ s, H' s → H s) : Follows P H' p p' Q :=
  fun s s' a s₁ hs hs' => h s s' a s₁ hs (hH s hs')

theorem assume {φ : Prop} (h : φ → Follows P H p p' Q) : Follows P (fun s => φ ∧ H s) p p' Q :=
  fun s s' a s₁ hs hH => h hH.1 s s' a s₁ hs hH.2

theorem bind (hp : Follows P H p p' Q) (hf : ∀ a a', Follows P (Q a a') (f a) (f' a') R) :
    Follows P H (p >>= f) (p' >>= f') R := by
  intro s s' b s₂ hs hH h
  obtain ⟨a, s₁, ha, hb⟩ := bind_ok h
  obtain ⟨a', s₁', ha', hs₁, hq⟩ := hp s s' a s₁ hs hH ha
  obtain ⟨b', s₂', hb', hs₂, hr⟩ := hf a a' s₁ s₁' b s₂ hs₁ hq hb
  exact ⟨b', s₂', (bind_of_ok ha').trans hb', hs₂, hr⟩

theorem ahead : Follows P H ahead ahead fun _ _ => H := by
  intro s s' a s₁ hs hH h
  obtain ⟨-, rfl⟩ := ahead_ok h
  exact ⟨_, s', rfl, hs, hH⟩

theorem behind : Follows P H behind behind fun _ _ => H := by
  intro s s' a s₁ hs hH h
  obtain ⟨-, rfl⟩ := behind_ok h
  exact ⟨_, s', rfl, hs, hH⟩

theorem isAt : Follows P (Near P n) (isAt kind) (isAt kind) fun b b' s => b' = b ∧ s.Near P n := by
  have h : Lockstep P (Near P n) (Parser.isAt kind >>= Pure.pure) (Parser.isAt kind >>= Pure.pure)
      fun b b' s => b' = b ∧ s.Near P n :=
    Lockstep.isAt_bind (fun s hs => .inl hs.1) (Lockstep.pure fun s hs => ⟨rfl, hs.1⟩)
      (Lockstep.pure fun s hs => ⟨rfl, hs.1⟩)
  rw [bind_pure] at h
  exact h.follows

theorem expect (hsemi : kind ≠ .semi) :
    Follows P (Near P n) (expect kind) (expect kind) fun t t' s => P.Alike t t' ∧ s.Near P (n - 1) := by
  have h : Lockstep P (Near P n) (Parser.expect kind >>= Pure.pure) (Parser.expect kind >>= Pure.pure)
      fun t t' s => P.Alike t t' ∧ s.Near P (n - 1) :=
    Lockstep.expect_bind hsemi fun t t' ht => Lockstep.pure fun s hs => ⟨ht, hs⟩
  rw [bind_pure] at h
  exact h.follows

theorem identifier : Follows P (Near P n) identifier identifier fun name name' s =>
    name' = name ∧ s.Near P (n - 1) := by
  refine (expect (by decide)).bind fun t t' => assume fun ht => Lockstep.follows ?_
  exact Lockstep.pure fun s hs => ⟨P.text_eq ht, hs⟩

end Follows

end

/-- A body that is closed before the seam. -/
theorem skipBody_follows {depth start b' : Nat} (hs : Beside P ⟨ts, b⟩ ⟨ts', b'⟩)
    (h : skipBody start depth b ts = .ok s₁) (hclear : depth = 0 → Clear P ⟨ts, b⟩) (start' : Nat) :
    ∃ s₁', skipBody start' depth b' ts' = .ok s₁' ∧ s₁.Beside P s₁' ∧ s₁.Clear P ∧
      s₁.rest.length ≤ ts.length := by
  fun_induction skipBody start depth b ts generalizing b' ts' with
  | case1 b ts =>
    cases h
    rw [skipBody]
    exact ⟨_, rfl, hs, hclear rfl, Nat.le_refl _⟩
  | case2 => cases h
  | case3 depth b t ts hkind ih =>
    obtain ⟨t', us, rfl, ht, htail, -⟩ := hs.uncons
    obtain ⟨s₁', hok, hs₁, hclear₁, hle⟩ := ih (htail _ t'.stop) h (by omega)
    rw [skipBody, if_pos ((P.kind_eq ht).trans hkind)]
    exact ⟨s₁', hok, hs₁, hclear₁, Nat.le_succ_of_le hle⟩
  | case4 depth b t ts hopen hkind ih =>
    obtain ⟨t', us, rfl, ht, htail, hclear'⟩ := hs.uncons
    have hsemi : t.kind ≠ .semi := by
      rw [hkind]
      decide
    obtain ⟨s₁', hok, hs₁, hclear₁, hle⟩ := ih (htail _ t'.stop) h fun _ => hclear' hsemi _
    rw [skipBody, P.kind_eq ht, if_neg hopen, if_pos hkind]
    exact ⟨s₁', hok, hs₁, hclear₁, Nat.le_succ_of_le hle⟩
  | case5 depth b t ts hopen hclose ih =>
    obtain ⟨t', us, rfl, ht, htail, -⟩ := hs.uncons
    obtain ⟨s₁', hok, hs₁, hclear₁, hle⟩ := ih (htail _ t'.stop) h (by omega)
    rw [skipBody, P.kind_eq ht, if_neg hopen, if_neg hclose]
    exact ⟨s₁', hok, hs₁, hclear₁, Nat.le_succ_of_le hle⟩

theorem follows_body :
    Follows P (Near P i) body body fun o o' s => o'.isSome = o.isSome ∧ s.Near P i := by
  refine Follows.isAt.bind fun b b' => .assume fun hb => ?_
  subst hb
  cases b' with
  | false => exact (Lockstep.pure fun s hs => ⟨rfl, hs⟩).follows
  | true =>
    refine (Follows.expect (by decide)).bind fun t t' => .assume fun _ => ?_
    intro s s' o s₁ hs hnear h
    obtain ⟨_, _, hget, h⟩ := bind_ok h
    cases hget
    cases hskip : skipBody t.start 1 t.stop s.rest with
    | error fault =>
      rw [hskip] at h
      cases h
    | ok s₂ =>
      rw [hskip] at h
      have hbeside : Beside P ⟨s.rest, t.stop⟩ ⟨s'.rest, t'.stop⟩ := ⟨hs.rest, hs.ended⟩
      obtain ⟨s₁', hok, hs₁, hclear₁, hle⟩ := skipBody_follows hbeside hskip (by simp) t'.start
      cases h
      refine ⟨some (.between t'.start s₁'.behind), s₁', ?_, hs₁, rfl, hclear₁, ?_⟩
      · have hget' : (get : Parser Cursor) s' = .ok (s', s') := rfl
        refine (bind_of_ok hget').trans ?_
        rw [hok]
        rfl
      · have hlt := hnear.2
        omega

theorem follows_funcTail (hblocks : Blocks P) {start start' j : Nat}
    {name : String} {tps tps' : List TypeParam} (hj : j ≤ i)
    (htps : tps'.map (TypeParam.withLengths P.view) = tps.map (TypeParam.withLengths P.view)) :
    Follows P (Near P j) (funcTail start recv name tps) (funcTail start' recv name tps') fun d d' s =>
      (d'.withLengths P.view).unplaced = (d.withLengths P.view).unplaced ∧ s.Near P i := by
  refine (tracks_signature (tracks_type hblocks j) j (Nat.le_refl j)).follows.bind fun sig sig' =>
    .assume fun hsig => ?_
  refine follows_body.bind fun o o' => .assume fun ho => ?_
  refine Follows.behind.bind fun _ _ => (Lockstep.result ?_ (by omega)).follows
  have hsome : o'.map (fun _ => (default : Span)) = o.map fun _ => default := by
    cases o <;> cases o' <;> simp_all
  simp only [Decl.withLengths, FuncDecl.withLengths, Decl.unplaced, FuncDecl.unplaced, htps, hsig,
    hsome]

theorem follows_namedFunc (hblocks : Blocks P) {start start' j : Nat}
    (hj : j ≤ i) :
    Follows P (Near P j) (namedFunc start recv) (namedFunc start' recv) fun d d' s =>
      (d'.withLengths P.view).unplaced = (d.withLengths P.view).unplaced ∧ s.Near P i := by
  refine Follows.identifier.bind fun name name' => .assume fun hname => ?_
  subst hname
  refine Follows.isAt.bind fun b b' => .assume fun hb => ?_
  subst hb
  cases b' with
  | false => exact follows_funcTail hblocks (by omega) rfl
  | true =>
    refine (tracks_typeParamList hblocks (j - 1) (Nat.le_refl _)).follows.bind fun r r' =>
      .assume fun hr => ?_
    exact follows_funcTail hblocks (by omega) (congrArg Prod.fst hr)

theorem follows_funcDecl (hblocks : Blocks P) :
    Follows P (Near P i) funcDecl funcDecl fun d d' s =>
      (d'.withLengths P.view).unplaced = (d.withLengths P.view).unplaced ∧ s.Near P i := by
  rw [funcDecl_eq]
  refine Follows.ahead.bind fun start start' => ?_
  refine (Follows.expect (by decide)).bind fun _ _ => .assume fun _ => ?_
  refine Follows.isAt.bind fun b b' => .assume fun hb => ?_
  subst hb
  cases b' with
  | false => exact follows_namedFunc hblocks (by omega)
  | true =>
    refine (tracks_receiver hblocks (i - 1) (Nat.le_refl _)).follows.bind fun r r' =>
      .assume fun hr => ?_
    obtain rfl : r' = r := hr
    exact follows_namedFunc hblocks (by omega)

/-! ## Values -/

/-- A declaration of values that ends before the seam. -/
theorem skipValue_follows {depth b' : Nat} (hs : Beside P ⟨ts, b⟩ ⟨ts', b'⟩)
    (h : skipValue depth b ts = .ok s₁) (hclear : depth = 0 → Clear P ⟨ts, b⟩) :
    ∃ s₁', skipValue depth b' ts' = .ok s₁' ∧ s₁.Beside P s₁' ∧ s₁.Clear P ∧
      s₁.rest.length ≤ ts.length := by
  induction ts generalizing depth b b' ts' with
  | nil =>
    rw [skipValue] at h
    by_cases hdepth : depth = 0
    · rw [if_pos hdepth] at h
      cases h
      rcases hs.cases (hclear hdepth) with ⟨-, hts'⟩ | ⟨t, ts, -, -, hts, -⟩
      · obtain rfl : ts' = [] := hts'
        rw [skipValue, if_pos hdepth]
        exact ⟨_, rfl, hs, hclear hdepth, Nat.le_refl _⟩
      · cases hts
    · rw [if_neg hdepth] at h
      cases h
  | cons t ts ih =>
    obtain ⟨t', us, rfl, ht, htail, hclear'⟩ := hs.uncons
    have hstep : ∀ {depth'}, skipValue depth' t.stop ts = .ok s₁ → (depth' = 0 → t.kind ≠ .semi) →
        ∃ s₁', skipValue depth' t'.stop us = .ok s₁' ∧ s₁.Beside P s₁' ∧ s₁.Clear P ∧
          s₁.rest.length ≤ (t :: ts).length := by
      intro depth' h' hsemi
      obtain ⟨s₁', hok, hs₁, hclear₁, hle⟩ := ih (htail _ _) h' fun hdepth => hclear' (hsemi hdepth) _
      exact ⟨s₁', hok, hs₁, hclear₁, Nat.le_succ_of_le hle⟩
    rw [skipValue] at h ⊢
    rw [P.kind_eq ht]
    cases hk : t.kind with
    | lParen | lBrace | lBrack =>
      rw [hk] at h
      exact hstep h (by simp)
    | rParen | rBrace | rBrack =>
      rw [hk] at h
      by_cases hdepth : depth = 0
      · dsimp only at h
        rw [if_pos hdepth] at h
        cases h
      · dsimp only at h ⊢
        rw [if_neg hdepth] at h ⊢
        exact hstep h (by simp [hk])
    | semi =>
      rw [hk] at h
      by_cases hdepth : depth = 0
      · dsimp only at h ⊢
        rw [if_pos hdepth] at h ⊢
        cases h
        exact ⟨_, rfl, ⟨hs.rest, hs.ended⟩, .inr (by simp), Nat.le_refl _⟩
      · dsimp only at h ⊢
        rw [if_neg hdepth] at h ⊢
        exact hstep h fun hzero => absurd hzero hdepth
    | _ =>
      rw [hk] at h
      exact hstep h (by simp [hk])

theorem follows_valueDecl (hkind : kind ≠ .semi) :
    Follows P (fun s => s.Near P i ∧ s.kind? = some kind) valueDecl valueDecl fun d d' s =>
      (d'.withLengths P.view).unplaced = (d.withLengths P.view).unplaced ∧ s.Near P i := by
  refine Follows.ahead.bind fun start start' => ?_
  have hnext : Follows P (fun s => s.Near P i ∧ s.kind? = some kind) next? next? fun _ _ s =>
      s.Near P (i - 1) := by
    have h : Lockstep P (fun s => s.Near P i ∧ s.kind? = some kind) (next? >>= Pure.pure)
        (next? >>= Pure.pure) fun _ _ s => s.Near P (i - 1) :=
      Lockstep.next?_bind (fun s hs => ⟨hs.1, kind, hs.2, hkind⟩) fun t t' _ =>
        Lockstep.pure fun s hs => hs
    rw [bind_pure] at h
    exact h.follows
  refine hnext.bind fun _ _ => ?_
  intro s s' d s₁ hs hnear h
  obtain ⟨_, _, hget, h⟩ := bind_ok h
  cases hget
  cases hskip : skipValue 0 s.behind s.rest with
  | error fault =>
    rw [hskip] at h
    cases h
  | ok s₂ =>
    rw [hskip] at h
    have hbeside : Beside P ⟨s.rest, s.behind⟩ ⟨s'.rest, s'.behind⟩ := ⟨hs.rest, hs.ended⟩
    obtain ⟨s₁', hok, hs₁, hclear₁, hle⟩ := skipValue_follows hbeside hskip fun _ => hnear.1
    cases h
    refine ⟨.value (Span.between start' s₁'.behind), s₁', ?_, hs₁, rfl, hclear₁, ?_⟩
    · have hget' : (get : Parser Cursor) s' = .ok (s', s') := rfl
      refine (bind_of_ok hget').trans ?_
      rw [hok]
      rfl
    · have hlt := hnear.2
      omega

/-! ## Files -/

theorem lockstep_topLevelEnd :
    Lockstep P (Near P i) topLevelEnd topLevelEnd fun _ _ s => s.rest.length < i := by
  refine lockstep_semi_or fun s s' hs hnear => ?_
  have hatEnd : ∀ s : Cursor, atEnd s = .ok (s.rest.isEmpty, s) := fun _ => rfl
  rw [bind_of_ok (hatEnd s), bind_of_ok (hatEnd s')]
  rcases hs.cases hnear.1 with ⟨hrest, hrest'⟩ | ⟨t, ts, t', ts', hrest, hrest', -, -, -⟩
  · rw [hrest, hrest']
    exact .inr ⟨_, _, s, s', rfl, rfl, hs, hnear.2⟩
  · rw [hrest, hrest']
    exact Lockstep.failHere s s' hs hnear

theorem lockstep_importDecls (hfunc : P.OpensFunc) :
    Lockstep P (fun s => s.rest.length < i) importDecls importDecls fun is is' s =>
      is'.map ImportDecl.unplaced = is.map ImportDecl.unplaced ∧ s.rest.length < i := by
  let V : List ImportDecl → List ImportDecl → Prop := fun is is' =>
    is'.map ImportDecl.unplaced = is.map ImportDecl.unplaced
  refine Lockstep.of_imp (Lockstep.loop (V := V) (C := fun _ => True) ?_ rfl) fun s hs => ⟨trivial, hs⟩
  intro j hj is is' his
  refine Lockstep.isAt_bind (fun s _ => .inr (head?_more_ne hfunc (by decide))) ?_
    (Lockstep.pure fun s hs => .done ⟨his, Nat.lt_of_lt_of_le hs.1.2 hj⟩)
  refine Lockstep.of_imp ?_ fun s hs => (⟨clear_of_kind? hs.2, hs.1.2⟩ : s.Near P j)
  refine (tracks_importDecl hfunc).bind (Nat.le_refl j) fun d d' hd => ?_
  refine lockstep_topLevelEnd.bind fun _ _ => Lockstep.pure fun s hs => .again ?_ trivial hs
  have his' : is'.map ImportDecl.unplaced = is.map ImportDecl.unplaced := his
  simp only [V, map_append, map_singleton, his', hd]

/-- A declaration by its first token. -/
theorem follows_decl (hblocks : Blocks P) (kind : TokenKind) :
    Follows P (fun s => s.Near P i ∧ s.kind? = some kind) (decl kind) (decl kind) fun d d' s =>
      d'.map (fun d => (d.withLengths P.view).unplaced) =
        d.map (fun d => (d.withLengths P.view).unplaced) ∧ s.Near P i := by
  have hsome : ∀ {p : Parser Decl}, Follows P (fun s => s.Near P i ∧ s.kind? = some kind) p p
      (fun d d' s => (d'.withLengths P.view).unplaced = (d.withLengths P.view).unplaced ∧ s.Near P i) →
      Follows P (fun s => s.Near P i ∧ s.kind? = some kind) (do return some (← p)) (do return some (← p))
        fun d d' s => d'.map (fun d => (d.withLengths P.view).unplaced) =
          d.map (fun d => (d.withLengths P.view).unplaced) ∧ s.Near P i := by
    intro p hp
    refine hp.bind fun d d' => Follows.assume fun hd => (Lockstep.result ?_ (Nat.le_refl i)).follows
    rw [Option.map_some, Option.map_some, hd]
  have htypes : Follows P (fun s => s.Near P i ∧ s.kind? = some kind) typeDecl typeDecl fun d d' s =>
      (d'.withLengths P.view).unplaced = (d.withLengths P.view).unplaced ∧ s.Near P i :=
    ((tracks_typeDecl hblocks i (Nat.le_refl i)).mono (fun s hs => hs.1)
      fun d d' s h => ⟨h.1, h.2.mono (Nat.sub_le i 1)⟩).follows
  cases kind with
  | kwType => exact hsome htypes
  | kwFunc => exact hsome ((follows_funcDecl hblocks).of_imp fun s hs => hs.1)
  | kwVar | kwConst => exact hsome (follows_valueDecl (by decide))
  | semi => exact ((Lockstep.result rfl (Nat.le_refl i)).of_imp fun s hs => hs.1).follows
  | _ => exact Lockstep.failHere.follows

/-- A round over the declarations of a file. -/
def declRound (ds : List Decl) : Parser (List Decl ⊕ List Decl) := do
  match ← peek with
  | none => return .inr ds
  | some kind =>
    let d ← decl kind
    topLevelEnd
    return .inl (ds ++ d.toList)

theorem declRound_nil (ds : List Decl) (hs : s.rest = []) : declRound ds s = .ok (.inr ds, s) := by
  obtain ⟨rest, b⟩ := s
  obtain rfl : rest = [] := hs
  rfl

theorem declRound_cons (ds : List Decl) (hs : s.kind? = some kind) :
    declRound ds s = (do
      let d ← decl kind
      topLevelEnd
      return .inl (ds ++ d.toList) : Parser (List Decl ⊕ List Decl)) s := by
  obtain ⟨rest, b⟩ := s
  cases rest with
  | nil => cases hs
  | cons t ts =>
    obtain rfl : t.kind = kind := Option.some.inj hs
    rfl

/-- Where the first reading is through, the second one stands at the seam, with the rounds left that
it has over the first. -/
theorem follows_decls (hblocks : Blocks P) {m m' : Nat} {ds ds' out : List Decl}
    (hs : s.Beside P s') (hm : m ≤ m')
    (hds : ds'.map (fun d => (d.withLengths P.view).unplaced)
      = ds.map fun d => (d.withLengths P.view).unplaced)
    (h : rounds declRound m ds s = .ok (out, s₁)) :
    ∃ k ds₁ b, rounds declRound m' ds' s' = rounds declRound k ds₁ ⟨P.more, b⟩ ∧ m' - m < k ∧
      ds₁.map (fun d => (d.withLengths P.view).unplaced) =
        out.map fun d => (d.withLengths P.view).unplaced := by
  induction m generalizing m' ds ds' s s' with
  | zero =>
    rw [rounds, Parser.failHere] at h
    split at h <;> cases h
  | succ m ih =>
    obtain ⟨m', rfl⟩ := Nat.exists_eq_add_of_lt (Nat.lt_of_lt_of_le (Nat.zero_lt_succ m) hm)
    rw [Nat.zero_add] at hm ⊢
    obtain ⟨r, s₂, hround, h⟩ := bind_ok h
    cases hrest : s.rest with
    | nil =>
      rw [declRound_nil ds hrest] at hround
      cases hround
      cases h
      obtain ⟨⟨us, hrest', halike⟩, -⟩ := hs
      rw [hrest] at halike
      cases halike
      obtain ⟨rest', b'⟩ := s'
      obtain rfl : rest' = P.more := hrest'
      exact ⟨m' + 1, ds', b', rfl, by omega, hds⟩
    | cons t ts =>
      have hkind : s.kind? = some t.kind := kind?_cons hrest
      have hclear : s.Clear P := clear_of_kind? hkind
      have hkind' : s'.kind? = some t.kind := (hs.kind?_eq hclear).trans hkind
      rw [declRound_cons ds hkind] at hround
      obtain ⟨d, s₃, hd, hround⟩ := bind_ok hround
      obtain ⟨_, s₄, hend, hround⟩ := bind_ok hround
      cases hround
      obtain ⟨d', s₃', hd', hs₃, hview, hnear⟩ := follows_decl (i := s.rest.length + 1) hblocks t.kind
        s s' d s₃ hs ⟨⟨hclear, Nat.lt_succ_self _⟩, hkind⟩ hd
      obtain ⟨_, s₄', hend', hs₄, -⟩ := lockstep_topLevelEnd.follows s₃ s₃' _ s₂ hs₃ hnear hend
      have hround' : declRound ds' s' = .ok (.inl (ds' ++ d'.toList), s₄') := by
        rw [declRound_cons ds' hkind', bind_of_ok hd', bind_of_ok hend']
        rfl
      have hnext : (ds' ++ d'.toList).map (fun d => (d.withLengths P.view).unplaced) =
          (ds ++ d.toList).map fun d => (d.withLengths P.view).unplaced := by
        rw [map_append, map_append, hds, ← Option.toList_map, ← Option.toList_map, hview]
      obtain ⟨k, ds₁, b, hrounds, hk, hds₁⟩ := ih hs₄ (Nat.le_of_succ_le_succ hm) hnext h
      refine ⟨k, ds₁, b, ?_, by omega, hds₁⟩
      rw [rounds, bind_of_ok hround']
      exact hrounds

/-- A file that is read from the first list is read from the second one up to the seam, and what
stands behind the seam is read as declarations.  Nothing is asked of what stands before the first
token. -/
theorem follows_file (hblocks : Blocks P) {t t' : Token} {f : SourceFile} (hkind : t'.kind = t.kind)
    (hs : Beside P ⟨ts, t.stop⟩ ⟨ts', t'.stop⟩) (h : file ⟨t :: ts, b⟩ = .ok (f, s₁)) (b' : Nat) :
    ∃ (span : Span) (imports : List ImportDecl) (k : Nat) (ds : List Decl) (behind : Nat),
      file ⟨t' :: ts', b'⟩ =
        (do return ⟨f.package, span, imports, ← rounds declRound k ds⟩ : Parser SourceFile)
          ⟨P.more, behind⟩ ∧
      P.more.length < k ∧ imports.map ImportDecl.unplaced = f.imports.map ImportDecl.unplaced ∧
      ds.map (fun d => (d.withLengths P.view).unplaced) =
        f.decls.map fun d => (d.withLengths P.view).unplaced := by
  obtain ⟨start, s₀, hahead, h⟩ := bind_ok h
  obtain ⟨-, hs₀⟩ := ahead_ok hahead
  rw [hs₀] at h
  obtain ⟨kw, s₂, hkw, h⟩ := bind_ok h
  obtain ⟨name, s₃, hname, h⟩ := bind_ok h
  obtain ⟨stop, s₀', hbehind, h⟩ := bind_ok h
  obtain ⟨-, hs₀'⟩ := behind_ok hbehind
  rw [hs₀'] at h
  obtain ⟨_, s₄, hend, h⟩ := bind_ok h
  obtain ⟨imports, s₅, himports, h⟩ := bind_ok h
  obtain ⟨ds, s₆, hds, h⟩ := bind_ok h
  cases h
  obtain ⟨hpackage, rfl⟩ : t.kind = .kwPackage ∧ s₂ = ⟨ts, t.stop⟩ := by
    obtain ⟨htakes, hk⟩ := expect_takes hkw
    obtain ⟨rfl, hrest⟩ := List.cons.inj htakes.rest
    obtain ⟨rest, behind⟩ := s₂
    obtain rfl : ts = rest := hrest
    obtain rfl : behind = t.stop := htakes.behind
    exact ⟨hk, rfl⟩
  have hkw' : expect .kwPackage ⟨t' :: ts', b'⟩ = .ok (t', ⟨ts', t'.stop⟩) :=
    if_pos (hkind.trans hpackage)
  have hclear : Clear P ⟨ts, t.stop⟩ := by
    refine .inr ?_
    rintro rfl
    cases hname
  obtain ⟨name', s₃', hname', hs₃, rfl, hnear₃⟩ :=
    Follows.identifier _ _ name s₃ hs ⟨hclear, Nat.lt_succ_self _⟩ hname
  obtain ⟨_, s₄', hend', hs₄, hlt₄⟩ := lockstep_topLevelEnd.follows s₃ s₃' _ s₄ hs₃ hnear₃ hend
  obtain ⟨imports', s₅', himports', hs₅, hview, hlt₅⟩ :=
    (lockstep_importDecls hblocks.func).follows s₄ s₄' imports s₅ hs₄ hlt₄ himports
  have hle : s₅.rest.length + 1 ≤ s₅'.rest.length + 1 := by
    rw [hs₅.length_eq]
    omega
  obtain ⟨k, ds₁, b₁, hrounds, hk, hds₁⟩ := follows_decls hblocks hs₅ hle rfl hds
  refine ⟨Span.between t'.start s₃'.behind, imports', k, ds₁, b₁, ?_, ?_, hview, hds₁⟩
  · have hdecls : decls s₅' = rounds declRound k ds₁ ⟨P.more, b₁⟩ := hrounds
    have hahead' : ahead ⟨t' :: ts', b'⟩ = .ok (t'.start, ⟨t' :: ts', b'⟩) := rfl
    have hbehind' : behind s₃' = .ok (s₃'.behind, s₃') := rfl
    rw [file, bind_of_ok hahead', bind_of_ok hkw', bind_of_ok hname', bind_of_ok hbehind',
      bind_of_ok hend', bind_of_ok himports']
    change (decls s₅' >>= _) = (rounds declRound k ds₁ ⟨P.more, b₁⟩ >>= _)
    rw [hdecls]
  · rw [hs₅.length_eq] at hk
    omega

end Parser

/-! ## Files with the same tokens -/

/-- Tokens of the same kinds and texts, with nothing behind them. -/
def Pairing.sameTokens : Pairing where
  Alike t t' := t'.kind = t.kind ∧ t'.text = t.text
  more := []
  view _ := ""
  kind_eq h := h.1
  text_eq h := h.2
  view_eq _ _ := rfl

theorem SourceFile.exists_parse {text text' : String} {f : SourceFile}
    (hts : tokenize text.toList = .ok ts) (hts' : tokenize text'.toList = .ok ts')
    (hsame : List.Forall₂ (fun t t' => t'.kind = t.kind ∧ t'.text = t.text) ts ts')
    (h : SourceFile.parse text = .ok f) : ∃ f', SourceFile.parse text' = .ok f' := by
  have hblocks : Parser.Blocks .sameTokens :=
    ⟨fun t ht => absurd ht (Option.not_mem_none t), fun hmore => absurd rfl hmore⟩
  obtain ⟨us, s₁, hus, hfile⟩ := Parser.run_ok h
  obtain rfl : ts = us := Except.ok.inj (hts.symm.trans hus)
  cases hsame with
  | nil => cases hfile
  | @cons t t' ts ts' ht htail =>
    have hbeside : Cursor.Beside .sameTokens ⟨ts, t.stop⟩ ⟨ts', t'.stop⟩ :=
      ⟨⟨ts', (append_nil ts').symm, htail⟩, fun hmore => absurd rfl hmore⟩
    obtain ⟨span, imports, k, ds, b, hfile', hk, -, -⟩ :=
      Parser.follows_file hblocks ht.1 hbeside hfile 0
    obtain ⟨k, rfl⟩ := Nat.exists_eq_add_of_lt hk
    have hround : Parser.rounds Parser.declRound (Pairing.sameTokens.more.length + k + 1) ds
        ⟨Pairing.sameTokens.more, b⟩ = .ok (ds, ⟨[], b⟩) := by
      rw [Parser.rounds, Parser.bind_of_ok (Parser.declRound_nil ds rfl)]
      rfl
    refine ⟨⟨f.package, span, imports, ds⟩, ?_⟩
    rw [SourceFile.parse, Parser.run_eq hts', hfile', Parser.bind_of_ok hround]
    rfl

end Stubwright
