import Stubwright.Proofs.Lockstep

/-!
# Reading types in lockstep

The rules for types read corresponding tokens alike.  The types that come out differ only in the
lengths of arrays, which keep what stood between their tokens.

* `tracks_type`: a type is read alike.
-/

namespace Stubwright

open List

open TypeExpr hiding name

/-! ## The lengths of arrays -/

mutual

/-- A type with `f` applied to the lengths of its arrays. -/
def TypeExpr.withLengths (f : String → String) : TypeExpr → TypeExpr
  | .name n => .name n
  | .qualified p n => .qualified p n
  | .generic base args => .generic (base.withLengths f) (args.map fun a => a.withLengths f)
  | .pointer elem => .pointer (elem.withLengths f)
  | .slice elem => .slice (elem.withLengths f)
  | .array len elem => .array (f len) (elem.withLengths f)
  | .map key value => .map (key.withLengths f) (value.withLengths f)
  | .chan dir elem => .chan dir (elem.withLengths f)
  | .func sig => .func (sig.withLengths f)
  | .interface elems => .interface (elems.map fun e => e.withLengths f)
  | .struct fields => .struct (fields.map fun d => d.withLengths f)
  | .paren elem => .paren (elem.withLengths f)
  | .ellipsis elem => .ellipsis (elem.withLengths f)
  | .union terms => .union (terms.map fun t => t.withLengths f)

/-- The same for the types of a signature. -/
def Signature.withLengths (f : String → String) : Signature → Signature
  | ⟨params, results⟩ => ⟨params.map fun p => p.withLengths f, results.map fun p => p.withLengths f⟩

/-- The same for the type of a group of parameters. -/
def Param.withLengths (f : String → String) : Param → Param
  | ⟨names, type⟩ => ⟨names, type.withLengths f⟩

/-- The same for the types of an element. -/
def Element.withLengths (f : String → String) : Element → Element
  | .method name sig => .method name (sig.withLengths f)
  | .embed type => .embed (type.withLengths f)

/-- The same for the type of a group of fields. -/
def Field.withLengths (f : String → String) : Field → Field
  | ⟨names, type, tag⟩ => ⟨names, type.withLengths f, tag⟩

/-- The same for the type of a term. -/
def Term.withLengths (f : String → String) : Term → Term
  | ⟨tilde, type⟩ => ⟨tilde, type.withLengths f⟩

end

/-- The tokens behind the seam start with the keyword of a function. -/
def Pairing.OpensFunc (P : Pairing) : Prop :=
  ∀ t ∈ P.more.head?, t.kind = .kwFunc

namespace Parser

variable {close : TokenKind} {P : Pairing} {α γ : Type} {i j : Nat}

/-- The same for the type of an entry. -/
def ParamEntry.withLengths (f : String → String) : ParamEntry → ParamEntry
  | .bare name => .bare name
  | .named name type => .named name (type.withLengths f)
  | .unnamed type => .unnamed (type.withLengths f)

section

variable (f : String → String)

theorem isNamed_withLengths (entry : ParamEntry) : (entry.withLengths f).isNamed = entry.isNamed := by
  cases entry <;> rfl

theorem groupNamed_withLengths (waiting : List String) (entries : List ParamEntry) :
    groupNamed waiting (entries.map (·.withLengths f)) =
      (groupNamed waiting entries).map (List.map (·.withLengths f)) := by
  fun_induction groupNamed waiting entries with
  | case1 waiting hempty | case2 waiting hempty => simp [groupNamed, hempty]
  | case3 waiting name entries ih => exact ih
  | case4 waiting name type entries ih =>
    rw [map_cons, ParamEntry.withLengths, groupNamed, ih, Option.map_map, Option.map_map]
    congr 1
    funext ps
    rw [Function.comp, Function.comp, map_cons, Param.withLengths]
  | case5 waiting type entries => rfl

theorem groupUnnamed_withLengths (entries : List ParamEntry) :
    groupUnnamed (entries.map (·.withLengths f)) =
      (groupUnnamed entries).map (·.withLengths f) := by
  fun_induction groupUnnamed entries with
  | case1 => rfl
  | case2 name entries ih =>
    rw [map_cons, map_cons, ParamEntry.withLengths, groupUnnamed, ih, Param.unnamed,
      Param.withLengths, withLengths]
  | case3 name type entries ih | case4 type entries ih =>
    rw [map_cons, map_cons, ParamEntry.withLengths, groupUnnamed, ih, Param.unnamed,
      Param.unnamed, Param.withLengths]

theorem groupParams_withLengths (entries : List ParamEntry) :
    groupParams (entries.map (·.withLengths f)) =
      (groupParams entries).map (List.map (·.withLengths f)) := by
  have hany : (entries.map (·.withLengths f)).any (·.isNamed) = entries.any (·.isNamed) := by
    rw [any_map]
    exact congrArg (fun p => entries.any p) (funext (isNamed_withLengths f))
  rw [groupParams, groupParams, hany]
  split
  · exact groupNamed_withLengths f [] entries
  · rw [groupUnnamed_withLengths, Option.map_some]

theorem ofTerms_withLengths (terms : List Term) :
    (ofTerms terms).withLengths f = ofTerms (terms.map (·.withLengths f)) := by
  rcases terms with _ | ⟨⟨_ | _, type⟩, _ | ⟨term, terms⟩⟩ <;>
    simp [ofTerms, withLengths, Term.withLengths]

end

/-! ## Readings that take a token -/

open Cursor

/-- Two readings that start with fewer than `n` tokens left, away from the seam, go in lockstep, take
a token and end away from the seam.  Their results are the same as far as `view` shows. -/
def Tracks {α γ : Type} (P : Pairing) (n : Nat) (view : α → γ) (p p' : Parser α) : Prop :=
  ∀ i ≤ n, Lockstep P (Near P i) p p' fun a a' s => view a' = view a ∧ s.Near P (i - 1)

namespace Tracks

variable {P : Pairing} {α β γ δ : Type} {view : α → γ} {n i j : Nat} {p p' : Parser α}

theorem bind {f f' : α → Parser β} {R : β → β → Cursor → Prop} (hp : Tracks P n view p p')
    (hi : i ≤ n)
    (hf : ∀ a a', view a' = view a → Lockstep P (Near P (i - 1)) (f a) (f' a') R) :
    Lockstep P (Near P i) (p >>= f) (p' >>= f') R :=
  (hp i hi).bind fun a a' => .assume (hf a a')

/-- Items up to a closing mark, with commas between them. -/
theorem separated (hp : Tracks P n view p p') (hi : i ≤ n) :
    Lockstep P (Near P i)
      (itemsUntil close do
        let a ← p
        return (a, ← eat .comma))
      (itemsUntil close do
        let a ← p'
        return (a, ← eat .comma))
      fun as as' s => as'.map view = as.map view ∧ s.Near P i := by
  refine .itemsUntil (fun s hs => .inl hs) fun j hj => .of_imp ?_ fun s hs => hs.1
  refine hp.bind (by omega) fun a a' ha => ?_
  refine .eat_bind (by decide) (.pure fun s hs => ?_) (.pure fun s hs => ?_)
  · exact ⟨rfl, ha, hs.mono (by omega), fun _ => hs.1⟩
  · exact ⟨rfl, ha, hs, fun _ => hs.1⟩

end Tracks

/-- The results at the end of a rule. -/
theorem Lockstep.result {view : α → γ} {a a' : α} (hview : view a' = view a) (hji : j ≤ i) :
    Lockstep P (Near P j) (Pure.pure a) (Pure.pure a') fun a a' s => view a' = view a ∧ s.Near P i :=
  .pure fun _ hs => ⟨hview, hs.mono hji⟩

/-! ## Parameters -/

section Rules

variable {P : Pairing} {n : Nat} {type type' : Parser TypeExpr} {view : α → γ}

theorem tracks_paramType (htype : Tracks P n (withLengths P.view) type type') :
    Tracks P n (withLengths P.view) (paramType type) (paramType type') := by
  intro i hi
  refine .eat_bind (by decide) ?_ (htype i hi)
  refine htype.bind (by omega) fun t t' ht => .result ?_ (by omega)
  rw [withLengths, withLengths, ht]

theorem tracks_paramEntry (htype : Tracks P n (withLengths P.view) type type') :
    Tracks P n (ParamEntry.withLengths P.view) (paramEntry type) (paramEntry type') := by
  intro i hi
  have hnamed : Lockstep P (Near P i) (do return ParamEntry.named (← identifier) (← paramType type))
      (do return ParamEntry.named (← identifier) (← paramType type')) fun e e' s =>
        e'.withLengths P.view = e.withLengths P.view ∧ s.Near P (i - 1) := by
    refine .identifier_bind fun name => ?_
    refine (tracks_paramType htype).bind (by omega) fun t t' ht => .result ?_ (by omega)
    rw [ParamEntry.withLengths, ParamEntry.withLengths, ht]
  have hunnamed : ∀ {q q' : Parser TypeExpr}, Tracks P n (withLengths P.view) q q' →
      Lockstep P (Near P i) (do return ParamEntry.unnamed (← q)) (do return ParamEntry.unnamed (← q'))
        fun e e' s => e'.withLengths P.view = e.withLengths P.view ∧ s.Near P (i - 1) := by
    intro q q' hq
    refine hq.bind hi fun t t' ht => .result ?_ (by omega)
    rw [ParamEntry.withLengths, ParamEntry.withLengths, ht]
  refine .isAt_bind (fun s hs => .inl hs.1) ?_
    ((hunnamed (tracks_paramType htype)).of_imp fun s hs => hs.1)
  refine .peekAt_one_bind (fun s hs => ⟨_, hs.2, by decide⟩) fun second => ?_
  refine .ite (fun _ => ?_) fun _ => .ite (fun _ => ?_) fun _ =>
    .ite (fun _ => ?_) fun _ => .ite (fun _ => ?_) fun _ => ?_
  · refine (Lockstep.identifier_bind fun name => .result rfl ?_).of_imp fun s hs => hs.1
    omega
  · exact (hunnamed htype).of_imp fun s hs => hs.1
  · refine .of_imp ?_ fun s hs => hs.1
    refine .attempt?_bind (htype i hi) ?_ (fun t t' => ?_) hnamed
    · intro t t' s s' hs hq
      exact congrArg endsEntry (hs.kind?_eq hq.2.1)
    · refine .assume fun ht => .result ?_ (by omega)
      rw [ParamEntry.withLengths, ParamEntry.withLengths, ht]
  · exact hnamed.of_imp fun s hs => hs.1
  · exact .next?_bind (fun s hs => ⟨hs.1, _, hs.2, by decide⟩) fun t t' _ =>
      .failHere

theorem tracks_params (htype : Tracks P n (withLengths P.view) type type') :
    Tracks P n (List.map (Param.withLengths P.view)) (params type) (params type') := by
  intro i hi
  refine .expect_bind (by decide) fun opening opening' _ => ?_
  refine ((tracks_paramEntry htype).separated (by omega)).bind fun entries entries' =>
    .assume fun hview => ?_
  refine .expect_bind (by decide) fun closing closing' _ => ?_
  have hgroups : (groupParams entries').map (List.map (Param.withLengths P.view)) =
      (groupParams entries).map (List.map (Param.withLengths P.view)) := by
    rw [← groupParams_withLengths, ← groupParams_withLengths, hview]
  cases hg : groupParams entries with
  | none =>
    rw [hg, Option.map_none, Option.map_eq_none_iff] at hgroups
    rw [hgroups]
    exact .failAt
  | some ps =>
    rw [hg, Option.map_some, Option.map_eq_some_iff] at hgroups
    obtain ⟨ps', hg', hps⟩ := hgroups
    rw [hg']
    exact .result hps (by omega)

theorem tracks_signature (htype : Tracks P n (withLengths P.view) type type') :
    Tracks P n (Signature.withLengths P.view) (signature type) (signature type') := by
  intro i hi
  refine (tracks_params htype).bind hi fun ps ps' hps => ?_
  refine .peek_bind (fun s hs => hs.1) fun k => .of_imp ?_ fun s hs => hs.1
  refine .ite (fun _ => ?_) fun _ => .ite (fun _ => ?_) fun _ => ?_
  · refine (tracks_params htype).bind (by omega) fun rs rs' hrs => .result ?_ (by omega)
    rw [Signature.withLengths, Signature.withLengths, hps, hrs]
  · refine htype.bind (by omega) fun t t' ht => .result ?_ (by omega)
    rw [Signature.withLengths, Signature.withLengths, hps, map_singleton, map_singleton,
      Param.unnamed, Param.unnamed, Param.withLengths, Param.withLengths, ht]
  · refine .result ?_ (Nat.le_refl _)
    rw [Signature.withLengths, Signature.withLengths, hps]

/-! ## Composite types -/

/-- The length of an array ends before the seam. -/
theorem lengthTokens_cases {ts ts' : List Token} (depth : Nat)
    (h : Beside P ⟨ts, 0⟩ ⟨ts', 0⟩) (hclear : Clear P ⟨ts, 0⟩) :
    (∃ e e', lengthTokens depth ts = .error e ∧ lengthTokens depth ts' = .error e') ∨
      ∃ taken rest taken' rest', lengthTokens depth ts = .ok (taken, rest) ∧
        lengthTokens depth ts' = .ok (taken', rest') ∧ List.Forall₂ P.Alike taken taken' ∧
        (∀ t ∈ taken, t.kind ≠ .semi) ∧ (∀ b b', Beside P ⟨rest, b⟩ ⟨rest', b'⟩) ∧ rest ≠ [] ∧
        rest.length ≤ ts.length := by
  induction ts generalizing depth ts' with
  | nil =>
    rcases h.cases hclear with ⟨-, hts' : ts' = []⟩ | ⟨t, ts, t', us, hts, -⟩
    · rw [hts']
      exact .inl ⟨_, _, rfl, rfl⟩
    · cases hts
  | cons t ts ih =>
    obtain ⟨t', us, rfl, ht, htail, hclear'⟩ := h.uncons
    rw [lengthTokens_cons, lengthTokens_cons, P.kind_eq ht]
    by_cases hclose : t.kind = .rBrack ∧ depth = 0
    · rw [if_pos hclose, if_pos hclose]
      refine .inr ⟨[], t :: ts, [], t' :: us, rfl, rfl, .nil, by simp, ?_, by simp, Nat.le_refl _⟩
      exact fun b b' => ⟨h.rest, h.ended⟩
    · rw [if_neg hclose, if_neg hclose]
      by_cases hsemi : t.kind = .semi
      · rw [if_pos hsemi, if_pos hsemi]
        exact .inl ⟨_, _, rfl, rfl⟩
      · -- a token that is neither the closing bracket nor a semicolon belongs to the length
        rw [if_neg hsemi, if_neg hsemi]
        rcases ih (depthAfter depth t.kind) (htail 0 0) (hclear' hsemi 0) with ⟨e, e', he, he'⟩ |
          ⟨taken, rest, taken', rest', hok, hok', htaken, hkinds, hrest, hne, hle⟩
        · rw [he, he']
          exact .inl ⟨e, e', rfl, rfl⟩
        · rw [hok, hok']
          exact .inr ⟨t :: taken, rest, t' :: taken', rest', rfl, rfl, .cons ht htaken,
            forall_mem_cons.2 ⟨hsemi, hkinds⟩, hrest, hne, Nat.le_succ_of_le hle⟩

theorem tracks_arrayLength : Tracks P n P.view arrayLength arrayLength := by
  intro i _ s s' hs hnear
  have hbeside : Beside P ⟨s.rest, 0⟩ ⟨s'.rest, 0⟩ := ⟨hs.rest, hs.ended⟩
  have hget : ∀ {β : Type} (f : Cursor → Parser β) (s : Cursor), (get >>= f) s = f s s := fun _ _ => rfl
  rw [arrayLength, hget, hget]
  rcases lengthTokens_cases 0 hbeside hnear.1 with ⟨e, e', he, he'⟩ |
    ⟨taken, rest, taken', rest', hok, hok', htaken, hkinds, hrest, hne, hle⟩
  · rw [he, he']
    exact .inl ⟨e, e', rfl, rfl⟩
  · rw [hok, hok']
    have hclose : Lockstep P (Near P i) (do let _ ← expect .rBrack; return writtenText taken)
        (do let _ ← expect .rBrack; return writtenText taken') fun len len' s =>
          P.view len' = P.view len ∧ s.Near P (i - 1) :=
      .expect_bind (by decide) fun _ _ _ =>
        .result (P.view_eq htaken hkinds) (Nat.le_refl _)
    exact hclose _ _ (hrest _ _) ⟨.inr hne, Nat.lt_of_le_of_lt hle hnear.2⟩

theorem lockstep_typeArgs (htype : Tracks P n (withLengths P.view) type type') (hi : i ≤ n)
    (base : TypeExpr) :
    Lockstep P (Near P i) (typeArgs type base) (typeArgs type' base) fun t t' s =>
      t'.withLengths P.view = t.withLengths P.view ∧ s.Near P i := by
  refine .eat_bind (by decide) ?_ (.result rfl (Nat.le_refl _))
  refine (htype.separated (by omega)).bind fun args args' => .assume fun hargs => ?_
  refine .expect_bind (by decide) fun _ _ _ => ?_
  have hempty : args'.isEmpty = args.isEmpty := by
    rw [← isEmpty_map, hargs, isEmpty_map]
  rw [hempty]
  refine .ite (fun _ => .failHere_bind) fun _ => .result ?_ (by omega)
  rw [withLengths, withLengths, hargs]

theorem tracks_typeName (htype : Tracks P n (withLengths P.view) type type') :
    Tracks P (n + 1) (withLengths P.view) (typeName type) (typeName type') := by
  intro i hi
  rw [typeName_eq, typeName_eq]
  refine .identifier_bind fun first => ?_
  refine .eat_bind (by decide) ?_ (lockstep_typeArgs htype (by omega) _)
  refine .identifier_bind fun name => ?_
  exact (lockstep_typeArgs htype (by omega) _).imp fun t t' s h => ⟨h.1, h.2.mono (by omega)⟩

theorem tracks_constraint (htype : Tracks P n (withLengths P.view) type type') :
    Tracks P n (withLengths P.view) (constraint type) (constraint type') := by
  intro i hi
  rw [constraint_eq, constraint_eq]
  let V : List Term → List Term → Prop := fun ts ts' =>
    ts'.map (Term.withLengths P.view) = ts.map (Term.withLengths P.view)
  have hround : ∀ j ≤ i, ∀ ts ts', V ts ts' →
      Lockstep P (Near P j) (unionTerm type ts) (unionTerm type' ts')
        (Lockstep.Round V (Clear P) (fun ts ts' s => V ts ts' ∧ s.Near P (i - 1)) j) := by
    intro j hj ts ts' hts
    have hterm : ∀ tilde, ∀ k ≤ j, Lockstep P (Near P k)
        (do
          let term : Term := ⟨tilde, ← type⟩
          return if ← eat .pipe then .inl (ts ++ [term]) else .inr (ts ++ [term]))
        (do
          let term : Term := ⟨tilde, ← type'⟩
          return if ← eat .pipe then .inl (ts' ++ [term]) else .inr (ts' ++ [term]))
        (Lockstep.Round V (Clear P) (fun ts ts' s => V ts ts' ∧ s.Near P (i - 1)) j) := by
      intro tilde k hk
      refine htype.bind (by omega) fun t t' ht => ?_
      have hnext : V (ts ++ [⟨tilde, t⟩]) (ts' ++ [⟨tilde, t'⟩]) := by
        have hts' : ts'.map (Term.withLengths P.view) = ts.map (Term.withLengths P.view) := hts
        simp only [V, map_append, map_singleton, hts', Term.withLengths, ht]
      refine .eat_bind (by decide) (.pure fun s hs => ?_) (.pure fun s hs => ?_)
      · exact .again hnext hs.1 (Nat.lt_of_lt_of_le hs.2 (by omega))
      · exact .done ⟨hnext, hs.mono (by omega)⟩
    exact .eat_bind (by decide) (hterm true (j - 1) (Nat.sub_le j 1))
      (hterm false j (Nat.le_refl j))
  refine (Lockstep.loop (V := V) hround rfl).bind fun ts ts' => .assume fun hts => ?_
  refine .result ?_ (Nat.le_refl _)
  rw [ofTerms_withLengths, ofTerms_withLengths]
  exact congrArg ofTerms hts

theorem tracks_element (htype : Tracks P n (withLengths P.view) type type') :
    Tracks P n (Element.withLengths P.view) (element type) (element type') := by
  intro i hi
  have hembed : Lockstep P (Near P i) (do return Element.embed (← constraint type))
      (do return Element.embed (← constraint type')) fun e e' s =>
        e'.withLengths P.view = e.withLengths P.view ∧ s.Near P (i - 1) := by
    refine (tracks_constraint htype).bind hi fun t t' ht => .result ?_ (Nat.le_refl _)
    rw [Element.withLengths, Element.withLengths, ht]
  refine .isAt_bind (fun s hs => .inl hs.1) ?_ ?_
  · refine .peekAt_one_bind (fun s hs => ⟨_, hs.2, by decide⟩) fun second => ?_
    refine .of_imp ?_ fun s hs => hs.1
    refine .ite (fun _ => ?_) fun _ => hembed
    refine .identifier_bind fun name => ?_
    refine (tracks_signature htype).bind (by omega) fun sig sig' hsig => .result ?_ (by omega)
    rw [Element.withLengths, Element.withLengths, hsig]
  · exact .still_bind (fun s => ⟨_, rfl⟩) fun second second' => hembed.of_imp fun s hs => hs.1

/-- A semicolon, which may be the last token before the seam, or something that stands in for it. -/
theorem lockstep_semi_or {p p' : Parser Unit}
    (h : Lockstep P (Near P i) p p' fun _ _ s => s.rest.length < i) :
    Lockstep P (Near P i) (do if ← eat .semi then return else p)
      (do if ← eat .semi then return else p') fun _ _ s => s.rest.length < i := by
  intro s s' hs hnear
  rcases Lockstep.eat_cases .semi hs hnear with ⟨s₁, s₁', he, he', hs₁, hlt, -⟩ | ⟨he, he', -⟩
  · rw [bind_of_ok he, bind_of_ok he']
    exact .inr ⟨_, _, s₁, s₁', rfl, rfl, hs₁, Nat.lt_of_lt_of_le hlt (Nat.sub_le i 1)⟩
  · rw [bind_of_ok he, bind_of_ok he']
    exact h s s' hs hnear

theorem lockstep_endOrClose (close : TokenKind) :
    Lockstep P (Near P i) (endOrClose close) (endOrClose close) fun _ _ s => s.rest.length < i :=
  lockstep_semi_or (.isAt_bind (fun _ hs => .inl hs.1) (.pure fun _ hs => hs.1.2)
    .failHere)

/-- Two readings of an item fail at the seam, or the second one leaves something that does not end an
item before the mark `close`. -/
def FailAtSeam {α : Type} (P : Pairing) (close : TokenKind) (item item' : Parser α) : Prop :=
  P.more ≠ [] → (∀ b, ∃ e, item ⟨[], b⟩ = .error e) ∧
    ∀ b a s, item' ⟨P.more, b⟩ = .ok (a, s) → ∃ e, endOrClose close s = .error e

/-- An item and its end, also where the first list is used up. -/
theorem Tracks.ended {β : Type} {item item' : Parser α}
    (hitem : Tracks P n view item item') (hseam : FailAtSeam P close item item') (hj : j ≤ n)
    (g : α → β) :
    Lockstep P (fun s => s.rest.length < j)
      (do
        let a ← item
        endOrClose close
        return (g a, true))
      (do
        let a ← item'
        endOrClose close
        return (g a, true))
      fun r r' s => (∃ a a', r = (g a, true) ∧ r' = (g a', true) ∧ view a' = view a) ∧
        s.rest.length < j - 1 := by
  intro s s' hs hlt
  by_cases hclear : s.Clear P
  · refine (hitem.bind hj fun a a' ha => ?_) s s' hs ⟨hclear, hlt⟩
    refine (lockstep_endOrClose close).bind fun _ _ => .pure fun s hs => ?_
    exact ⟨⟨a, a', rfl, rfl, ha⟩, hs⟩
  · obtain ⟨hmore, hrest, hrest'⟩ := hs.seam hclear
    obtain ⟨b, rfl⟩ : ∃ b, s = ⟨[], b⟩ := ⟨s.behind, by rw [← hrest]⟩
    obtain ⟨b', rfl⟩ : ∃ b', s' = ⟨P.more, b'⟩ := ⟨s'.behind, by rw [← hrest']⟩
    obtain ⟨e, he⟩ := (hseam hmore).1 b
    refine .inl ?_
    cases hitem' : item' ⟨P.more, b'⟩ with
    | error e' => exact ⟨e, e', bind_of_error he, bind_of_error hitem'⟩
    | ok r =>
      obtain ⟨a, s₁⟩ := r
      obtain ⟨e', he'⟩ := (hseam hmore).2 b' a s₁ hitem'
      exact ⟨e, e', bind_of_error he, (bind_of_ok hitem').trans (bind_of_error he')⟩

/-- No kind of token but the keyword of a function stands behind the seam. -/
theorem head?_more_ne {kind : TokenKind} (hfunc : P.OpensFunc) (hkind : kind ≠ .kwFunc) :
    P.more.head?.map (·.kind) ≠ some kind := by
  intro h
  obtain ⟨t, ht, hk⟩ := Option.map_eq_some_iff.1 h
  exact hkind (hk ▸ hfunc t ht)

/-- A semicolon, also where the first list is used up. -/
theorem lockstep_eat_semi (hfunc : P.OpensFunc) :
    Lockstep P (fun s => s.rest.length < j) (eat .semi) (eat .semi) fun b b' s =>
      b' = b ∧ s.rest.length < j ∧ (b = true → s.rest.length < j - 1) := by
  intro s s' hs hlt
  by_cases hclear : s.Clear P
  · rcases Lockstep.eat_cases .semi hs ⟨hclear, hlt⟩ with ⟨s₁, s₁', he, he', hs₁, hlt₁, -⟩ |
      ⟨he, he', -⟩
    · exact .inr ⟨_, _, s₁, s₁', he, he', hs₁, rfl, by omega, fun _ => hlt₁⟩
    · exact .inr ⟨_, _, s, s', he, he', hs, rfl, hlt, by simp⟩
  · obtain ⟨-, hrest, hrest'⟩ := hs.seam hclear
    refine .inr ⟨false, false, s, s', by rw [eat, hrest], ?_, hs, rfl, hlt, by simp⟩
    cases hus : P.more with
    | nil => rw [eat, hrest', hus]
    | cons t us =>
      have hkind : t.kind ≠ .semi := by
        rw [hfunc t (by rw [hus]; rfl)]
        decide
      rw [eat, hrest', hus]
      exact if_neg hkind

theorem tracks_braced {item item' : Parser α} (hitem : Tracks P n view item item')
    (hfunc : P.OpensFunc) (hseam : FailAtSeam P .rBrace item item') :
    Tracks P n (List.map view) (braced item) (braced item') := by
  intro i hi
  refine .expect_bind (by decide) fun _ _ _ => ?_
  refine .bind (Q := fun as as' s =>
    as'.map (Option.map view) = as.map (Option.map view) ∧ s.Near P (i - 1)) ?_ fun as as' => ?_
  · refine .of_imp (.itemsUntil (C := fun _ => True)
      (fun _ _ => .inr (head?_more_ne hfunc (by decide))) fun j hj => ?_) fun s hs => ⟨trivial, hs.2⟩
    refine .of_imp ?_ fun s hs => hs.1.2
    refine (lockstep_eat_semi hfunc).bind fun b b' => .assume fun hb => ?_
    subst hb
    refine .ite (fun hsemi => .pure fun s hs => ?_) fun _ => ?_
    · exact ⟨rfl, rfl, ⟨trivial, hs.2 hsemi⟩, by simp⟩
    · refine (hitem.ended hseam (by omega) some).mono (fun s hs => hs.1) ?_
      rintro _ _ s ⟨⟨a, a', rfl, rfl, ha⟩, hs⟩
      exact ⟨rfl, congrArg some ha, ⟨trivial, hs⟩, by simp⟩
  · refine .assume fun has => .expect_bind (by decide) fun _ _ _ =>
      .result ?_ (by omega)
    have hsome : ∀ as : List (Option α), (as.filterMap id).map view =
        (as.map (Option.map view)).filterMap id := by
      intro as
      rw [map_filterMap, filterMap_map]
      rfl
    rw [hsome, hsome, has]

theorem lockstep_fieldNames (names : List String) :
    Lockstep P (Near P i) (loop fieldName names) (loop fieldName names) fun ns ns' s =>
      ns' = ns ∧ s.Near P i := by
  refine .loop (V := fun ns ns' => ns' = ns) ?_ rfl
  intro j hj ns ns' hns
  subst hns
  refine .eat_bind (by decide) ?_ (.pure fun s hs => .done ⟨rfl, hs.mono hj⟩)
  refine .identifier_bind fun name => .pure fun s hs => ?_
  exact .again rfl hs.1 (Nat.lt_of_lt_of_le hs.2 (Nat.sub_le _ 1))

theorem tracks_fieldType (htype : Tracks P n (withLengths P.view) type type') :
    Tracks P n (Prod.map id (withLengths P.view)) (fieldType type) (fieldType type') := by
  intro i hi
  have hgroup : ∀ {j : Nat}, j ≤ i → ∀ names : List String,
      Lockstep P (Near P j) (do return (names, ← type)) (do return (names, ← type')) fun r r' s =>
        Prod.map id (withLengths P.view) r' = Prod.map id (withLengths P.view) r ∧
          s.Near P (i - 1) := by
    intro j hj names
    refine htype.bind (by omega) fun t t' ht => .result ?_ (by omega)
    rw [Prod.map, Prod.map, ht]
  have hnamed : Lockstep P (Near P i) (do return ([← identifier], ← type))
      (do return ([← identifier], ← type')) fun r r' s =>
        Prod.map id (withLengths P.view) r' = Prod.map id (withLengths P.view) r ∧
          s.Near P (i - 1) :=
    .identifier_bind fun name => hgroup (Nat.sub_le i 1) [name]
  refine .isAt_bind (fun s hs => .inl hs.1) ?_ ?_
  · exact (hgroup (Nat.le_refl i) []).of_imp fun s hs => hs.1
  refine .of_imp ?_ fun s (hs : s.Near P i ∧ s.kind? ≠ some .star) => hs.1
  refine .isAt_bind (fun s hs => .inl hs.1) ?_ .failHere_bind
  refine .peekAt_one_bind (fun s hs => ⟨_, hs.2, by decide⟩) fun second => ?_
  refine .of_imp ?_ fun s hs => hs.1
  refine .ite (fun _ => ?_) fun _ => .ite (fun _ => hgroup (Nat.le_refl i) []) fun _ =>
    .ite (fun _ => ?_) fun _ => hnamed
  · refine .identifier_bind fun first => ?_
    refine (lockstep_fieldNames [first]).bind fun names names' => .assume fun hnames => ?_
    subst hnames
    exact hgroup (Nat.sub_le i 1) names'
  · refine .attempt?_bind (htype i hi) ?_ (fun t t' => ?_) hnamed
    · intro t t' s s' hs hq
      exact congrArg endsField (hs.kind?_eq hq.2.1)
    · refine .assume fun ht => .result ?_ (Nat.le_refl _)
      rw [Prod.map, Prod.map, ht]

theorem exists_of_isTag {kind : Option TokenKind} (h : isTag kind = true) :
    ∃ k, kind = some k ∧ k ≠ .semi := by
  rcases Bool.or_eq_true_iff.1 h with hkind | hkind
  · exact ⟨_, eq_of_beq hkind, by decide⟩
  · exact ⟨_, eq_of_beq hkind, by decide⟩

theorem tracks_field (htype : Tracks P n (withLengths P.view) type type') :
    Tracks P n (Field.withLengths P.view) (field type) (field type') := by
  intro i hi
  refine (tracks_fieldType htype).bind hi fun r r' hr => ?_
  obtain ⟨names, t⟩ := r
  obtain ⟨names', t'⟩ := r'
  obtain ⟨hnames, ht⟩ := Prod.mk.inj hr
  obtain rfl : names' = names := hnames
  refine .peek_bind (fun s hs => hs.1) fun kind => .ite (fun htag => ?_) fun _ => ?_
  · refine .next?_bind (n := i - 1) (fun s hs => ⟨hs.1, ?_⟩) fun u u' hu =>
      .result ?_ (by omega)
    · rw [hs.2]
      exact exists_of_isTag htag
    · rw [Field.withLengths, Field.withLengths, ht, Option.map_some, Option.map_some, P.text_eq hu]
  · refine .of_imp (.result ?_ (Nat.le_refl _)) fun s hs => hs.1
    rw [Field.withLengths, Field.withLengths, ht]

theorem failAtSeam_of_error {item item' : Parser α} (hfunc : P.OpensFunc)
    (hnil : ∀ b, ∃ e, item ⟨[], b⟩ = .error e)
    (hcons : ∀ text lead start us b,
      ∃ e, item' ⟨⟨.kwFunc, text, lead, start⟩ :: us, b⟩ = .error e) :
    FailAtSeam P close item item' := by
  refine fun hmore => ⟨hnil, fun b a s h => ?_⟩
  obtain ⟨⟨kind, text, lead, start⟩, us, hus⟩ := exists_cons_of_ne_nil hmore
  obtain rfl : kind = .kwFunc := hfunc _ (by rw [hus]; rfl)
  obtain ⟨e, he⟩ := hcons text lead start us b
  rw [hus, he] at h
  cases h

theorem failAtSeam_field (hfunc : P.OpensFunc) :
    FailAtSeam P .rBrace (field type) (field type') :=
  failAtSeam_of_error hfunc (fun _ => ⟨_, rfl⟩) fun _ _ _ _ _ => ⟨_, rfl⟩

/-! ## Types -/

theorem tracks_typeStep (htype : Tracks P n (withLengths P.view) type type')
    (hfunc : P.OpensFunc) (hseam : FailAtSeam P .rBrace (element type) (element type')) :
    Tracks P (n + 1) (withLengths P.view) (typeStep type) (typeStep type') := by
  intro i hi
  have hnext : ∀ {k : TokenKind} {f f' : Option Token → Parser TypeExpr}, k ≠ .semi →
      (∀ o o', Lockstep P (Near P (i - 1)) (f o) (f' o') fun t t' s =>
        t'.withLengths P.view = t.withLengths P.view ∧ s.Near P (i - 1)) →
      Lockstep P (fun s => s.Near P i ∧ s.kind? = some k) (next? >>= f) (next? >>= f') fun t t' s =>
        t'.withLengths P.view = t.withLengths P.view ∧ s.Near P (i - 1) := by
    intro k f f' hk hf
    exact .next?_bind (fun s hs => ⟨hs.1, k, hs.2, hk⟩) fun t t' _ => hf _ _
  refine .peek_bind (fun s hs => hs.1) fun kind => ?_
  split
  · exact (tracks_typeName htype i hi).of_imp fun s hs => hs.1
  · refine hnext (by decide) fun _ _ => ?_
    refine htype.bind (by omega) fun t t' ht => .result ?_ (by omega)
    rw [withLengths, withLengths, ht]
  · refine hnext (by decide) fun _ _ => .eat_bind (by decide) ?_ ?_
    · refine htype.bind (by omega) fun t t' ht => .result ?_ (by omega)
      rw [withLengths, withLengths, ht]
    · refine tracks_arrayLength.bind (Nat.le_refl _) fun len len' hlen => ?_
      refine htype.bind (by omega) fun t t' ht => .result ?_ (by omega)
      rw [withLengths, withLengths, hlen, ht]
  · refine hnext (by decide) fun _ _ => htype.bind (by omega) fun t t' ht => ?_
    refine .expect_bind (by decide) fun _ _ _ => .result ?_ (by omega)
    rw [withLengths, withLengths, ht]
  · refine hnext (by decide) fun _ _ => ?_
    refine (tracks_signature htype).bind (by omega) fun sig sig' hsig => .result ?_ (by omega)
    rw [withLengths, withLengths, hsig]
  · refine hnext (by decide) fun _ _ => .expect_bind (by decide) fun _ _ _ => ?_
    refine htype.bind (by omega) fun key key' hkey => ?_
    refine .expect_bind (by decide) fun _ _ _ => ?_
    refine htype.bind (by omega) fun value value' hvalue => .result ?_ (by omega)
    rw [withLengths, withLengths, hkey, hvalue]
  · refine hnext (by decide) fun _ _ => .eat_bind (by decide) ?_ ?_
    · refine htype.bind (by omega) fun t t' ht => .result ?_ (by omega)
      rw [withLengths, withLengths, ht]
    · refine htype.bind (by omega) fun t t' ht => .result ?_ (by omega)
      rw [withLengths, withLengths, ht]
  · refine hnext (by decide) fun _ _ => .expect_bind (by decide) fun _ _ _ => ?_
    refine htype.bind (by omega) fun t t' ht => .result ?_ (by omega)
    rw [withLengths, withLengths, ht]
  · refine hnext (by decide) fun _ _ => ?_
    refine (tracks_braced (tracks_element htype) hfunc hseam).bind (by omega) fun es es' hes =>
      .result ?_ (by omega)
    rw [withLengths, withLengths, hes]
  · refine hnext (by decide) fun _ _ => ?_
    refine (tracks_braced (tracks_field htype) hfunc (failAtSeam_field hfunc)).bind (by omega)
      fun fs fs' hfs => .result ?_ (by omega)
    rw [withLengths, withLengths, hfs]
  · exact .failHere

end Rules

/-- What stands behind the seam is no item of a struct or an interface: a function follows, and what
can be read there as an element does not end where an element has to. -/
structure Blocks (P : Pairing) : Prop where
  func : P.OpensFunc
  element : P.more ≠ [] → ∀ depth b a s, element (typeWithin depth) ⟨P.more, b⟩ = .ok (a, s) →
    ∃ e, endOrClose .rBrace s = .error e

theorem typeWithin_nil (depth b : Nat) : ∃ e, typeWithin depth ⟨[], b⟩ = .error e := by
  cases depth with
  | zero => exact ⟨_, rfl⟩
  | succ depth => exact ⟨_, rfl⟩

theorem Blocks.failAtSeam_element (h : Blocks P) (m m' : Nat) :
    FailAtSeam P .rBrace (Parser.element (typeWithin m)) (Parser.element (typeWithin m')) := by
  refine fun hmore => ⟨fun b => ?_, fun b a s => h.element hmore m' b a s⟩
  obtain ⟨e, he⟩ := typeWithin_nil m b
  refine ⟨e, ?_⟩
  have hterm : unionTerm (typeWithin m) [] ⟨[], b⟩ = .error e :=
    (bind_of_ok (show eat .tilde ⟨[], b⟩ = .ok (false, ⟨[], b⟩) from rfl)).trans (bind_of_error he)
  have hterms : loop (unionTerm (typeWithin m)) [] ⟨[], b⟩ = .error e := by
    change rounds (unionTerm (typeWithin m)) 1 [] ⟨[], b⟩ = _
    exact bind_of_error hterm
  change (constraint (typeWithin m) >>= fun t => pure (Element.embed t)) ⟨[], b⟩ = _
  rw [constraint_eq]
  exact bind_of_error (bind_of_error hterms)

theorem tracks_typeWithin (hblocks : Blocks P) {n n' : Nat} (hn : n ≤ n') :
    Tracks P n (withLengths P.view) (typeWithin n) (typeWithin n') := by
  induction n generalizing n' with
  | zero =>
    intro i hi s s' _ hs
    exact absurd hs.2 (by omega)
  | succ n ih =>
    obtain ⟨m, rfl⟩ := Nat.exists_eq_add_of_lt (Nat.lt_of_lt_of_le (Nat.zero_lt_succ n) hn)
    rw [Nat.zero_add]
    exact tracks_typeStep (ih (by omega)) hblocks.func (hblocks.failAtSeam_element n m)

/-- A type is read alike from both lists. -/
theorem tracks_type (hblocks : Blocks P) (n : Nat) : Tracks P n (withLengths P.view) type type := by
  intro i _ s s' hs hnear
  have hle : s.rest.length + 1 ≤ s'.rest.length + 1 := by
    rw [hs.length_eq]
    omega
  have hdepth := (tracks_typeWithin hblocks hle (s.rest.length + 1) (Nat.le_refl _)).imp
    fun t t' s₁ h => (⟨h.1, h.2.mono (Nat.le_sub_of_add_le hnear.2)⟩ :
      t'.withLengths P.view = t.withLengths P.view ∧ s₁.Near P (i - 1))
  exact hdepth s s' hs ⟨hnear.1, Nat.lt_succ_self _⟩

end Parser

end Stubwright
