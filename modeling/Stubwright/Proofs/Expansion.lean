import Stubwright.Interface
import Stubwright.Proofs.Spelling

/-!
# The names of listed methods

Listing the methods of an interface claims their names as it goes.  Whatever the interface embeds,
no name is listed twice.

* `claims_expand`: no name is listed twice.
* `isInternal_expand`: no internal error arises.
-/

namespace Stubwright

open List

variable {claimed : Names} {e : StubError} {r : Except StubError Expansion}
  {k : Names → Except StubError Expansion}

/-- The methods of groups in order, each with its group. -/
def MethodGroup.flatten (groups : List MethodGroup) : List (MethodGroup × Method) :=
  groups.flatMap fun group => group.methods.map fun m => (group, m)

namespace Expansion

/-- The names of the listed methods, in order. -/
def names (e : Expansion) : List String :=
  (MethodGroup.flatten e.groups).map (·.2.name)

@[simp] theorem names_nothing (claimed : Names) : (nothing claimed).names = [] := rfl

theorem names_append (as bs : List MethodGroup) (claimed₁ claimed₂ claimed₃ : Names) :
    names ⟨as ++ bs, claimed₃⟩ = names ⟨as, claimed₁⟩ ++ names ⟨bs, claimed₂⟩ := by
  simp [names, MethodGroup.flatten]

/-- A step of a listing that starts with some names claimed: the names it lists are distinct, none
was claimed before, and just these are claimed in addition. -/
structure Claims (claimed : Names) (e : Expansion) : Prop where
  nodup : e.names.Nodup
  fresh : ∀ name ∈ e.names, name ∉ claimed
  mem_claimed : ∀ name, name ∈ e.claimed ↔ name ∈ claimed ∨ name ∈ e.names

namespace Claims

theorem nothing (claimed : Names) : Claims claimed (nothing claimed) :=
  ⟨nodup_nil, by simp, by simp [Expansion.nothing, names, MethodGroup.flatten]⟩

/-- Two steps one after the other are one step. -/
theorem append {a b : Expansion} (ha : Claims claimed a) (hb : Claims a.claimed b) :
    Claims claimed ⟨a.groups ++ b.groups, b.claimed⟩ := by
  have hnames : names ⟨a.groups ++ b.groups, b.claimed⟩ = a.names ++ b.names := names_append ..
  have hapart : ∀ name ∈ a.names, name ∉ b.names := fun name h h' =>
    hb.fresh name h' ((ha.mem_claimed name).2 (.inr h))
  refine ⟨?_, ?_, ?_⟩
  · rw [hnames]
    exact nodup_append.2 ⟨ha.nodup, hb.nodup, fun x hx y hy hxy => hapart x hx (hxy ▸ hy)⟩
  · intro name h
    rw [hnames, mem_append] at h
    rcases h with h | h
    · exact ha.fresh name h
    · exact fun hclaimed => hb.fresh name h ((ha.mem_claimed name).2 (.inl hclaimed))
  · intro name
    rw [hb.mem_claimed, ha.mem_claimed, hnames, mem_append, or_assoc]

end Claims

theorem claim_spec (claimed : Names) (ms : List Method) :
    ((claim claimed ms).1.map (·.name)).Nodup ∧
      (∀ m ∈ (claim claimed ms).1, m.name ∉ claimed) ∧
      ∀ name, name ∈ (claim claimed ms).2 ↔
        name ∈ claimed ∨ name ∈ (claim claimed ms).1.map (·.name) := by
  induction ms generalizing claimed with
  | nil => simp [claim]
  | cons m ms ih =>
    rw [claim]
    split
    · exact ih claimed
    · rename_i hnew
      rw [contains_iff_mem] at hnew
      obtain ⟨hnodup, hfresh, hmem⟩ := ih (Names.insert m.name claimed)
      have hfresh' : ∀ m' ∈ (claim (Names.insert m.name claimed) ms).1,
          m'.name ≠ m.name ∧ m'.name ∉ claimed := by
        intro m' hm'
        have hnot := hfresh m' hm'
        rw [Names.mem_insert, not_or] at hnot
        exact hnot
      refine ⟨?_, ?_, ?_⟩
      · refine nodup_cons.2 ⟨?_, hnodup⟩
        intro hm
        obtain ⟨m', hm', heq⟩ := mem_map.1 hm
        exact (hfresh' m' hm').1 heq
      · intro m' hm'
        rcases mem_cons.1 hm' with rfl | hm'
        · exact hnew
        · exact (hfresh' m' hm').2
      · intro name
        rw [hmem, Names.mem_insert, map_cons, mem_cons]
        tauto

theorem claims_ofMethods (interface : String) (scope : Scope) (claimed : Names)
    (methods : List Method) : Claims claimed (ofMethods interface scope claimed methods) := by
  obtain ⟨hnodup, hfresh, hmem⟩ := claim_spec claimed methods
  rw [ofMethods]
  split
  · rename_i kept hclaim
    rw [hclaim] at hmem
    refine ⟨nodup_nil, ?_, ?_⟩
    · intro name h
      cases h
    · intro name
      simpa [names, MethodGroup.flatten] using hmem name
  · rename_i kept after _ hclaim
    rw [hclaim] at hnodup hfresh hmem
    have hnames : names ⟨[⟨interface, scope, kept⟩], after⟩ = kept.map (·.name) := by
      simp [names, MethodGroup.flatten]
    refine ⟨hnames ▸ hnodup, ?_, ?_⟩
    · intro name h
      rw [hnames] at h
      obtain ⟨m, hm, rfl⟩ := mem_map.1 h
      exact hfresh m hm
    · intro name
      rw [hnames]
      exact hmem name

end Expansion

/-! ## Listing an interface -/

/-- Whether a type as an embedded element only constrains an interface: it is neither a name nor an
interface. -/
def TypeExpr.onlyConstrains : TypeExpr → Bool
  | .paren _ | .name _ | .qualified .. | .interface _ | .generic .. => false
  | _ => true

/-- Whether an error says that a name stands for nothing, or for something generic. -/
def StubError.isLookup : StubError → Bool
  | .declarationNotFound .. | .dependencyMissing .. | .unresolvedQualifier .. => true
  | .invalidInterface _ .generic => true
  | _ => false

/-- Whether an error says that a condition was broken that should hold by construction. -/
def StubError.isInternal : StubError → Bool
  | .internal _ => true
  | _ => false

theorem StubError.isInternal_of_isLookup (h : e.isLookup = true) : e.isInternal = false := by
  cases e <;> first | rfl | cases h

/-- A listing that goes on where another one has come to. -/
def Expansion.andThen (r : Except StubError Expansion) (k : Names → Except StubError Expansion) :
    Except StubError Expansion :=
  match r with
  | .error e => .error e
  | .ok a =>
    match k a.claimed with
    | .error e => .error e
    | .ok b => .ok ⟨a.groups ++ b.groups, b.claimed⟩

theorem Expansion.error_of_andThen (h : andThen r k = .error e) :
    r = .error e ∨ ∃ claimed, k claimed = .error e := by
  cases r with
  | error e' => exact .inl h
  | ok a =>
    rw [andThen] at h
    cases hb : k a.claimed with
    | error e' =>
      rw [hb] at h
      cases h
      exact .inr ⟨_, hb⟩
    | ok b =>
      rw [hb] at h
      cases h

theorem Expansion.ok_of_andThen {e : Expansion} (h : andThen r k = .ok e) :
    ∃ a b, r = .ok a ∧ k a.claimed = .ok b ∧ e = ⟨a.groups ++ b.groups, b.claimed⟩ := by
  cases r with
  | error e' => cases h
  | ok a =>
    rw [andThen] at h
    cases hb : k a.claimed with
    | error e' =>
      rw [hb] at h
      cases h
    | ok b =>
      rw [hb] at h
      cases h
      exact ⟨a, b, rfl, hb, rfl⟩

/-- What is kept by the steps of which a listing is made, as a property of the names that were
claimed before and of the outcome: a failure, the methods of one declaration, and two steps of which
the second goes on where the first has come to. -/
structure Listing (Q : Names → Except StubError Expansion → Prop) : Prop where
  error : ∀ {claimed e}, e.isInternal = false → Q claimed (.error e)
  nothing : ∀ claimed, Q claimed (.ok (.nothing claimed))
  own : ∀ interface scope claimed methods,
    Q claimed (.ok (.ofMethods interface scope claimed methods))
  append : ∀ {claimed a r}, Q claimed (.ok a) → Q a.claimed r →
    Q claimed (r.map fun b => ⟨a.groups ++ b.groups, b.claimed⟩)

/-- Such a property is kept by a listing that goes on where another one has come to. -/
theorem Listing.andThen {Q : Names → Except StubError Expansion → Prop} (hQ : Listing Q)
    (hr : Q claimed r) (hk : ∀ claimed, Q claimed (k claimed)) :
    Q claimed (Expansion.andThen r k) := by
  cases r with
  | error e => exact hr
  | ok a =>
    have happend := hQ.append hr (hk a.claimed)
    rw [Expansion.andThen]
    cases h : k a.claimed <;> rw [h] at happend <;> exact happend

namespace Program

open Expansion

variable {p : Program} {decl : Declared} {scope : Scope}

/-- A name stands for a declared type. -/
inductive StandsFor (p : Program) (scope : Scope) : TypeExpr → Declared → Prop
  | name {name : String} {decl : Declared} (h : p.resolveName scope name = .declared decl) :
      StandsFor p scope (.name name) decl
  | qualified {package name : String} {decl : Declared}
      (h : p.requireQualified scope package name = .ok decl) :
      StandsFor p scope (.qualified package name) decl

theorem isLookup_unknownName (scope : Scope) (name : String) :
    (unknownName scope name).isLookup = true := by
  rw [unknownName]
  split <;> rfl

theorem isLookup_requireQualified {qualifier name : String}
    (h : p.requireQualified scope qualifier name = .error e) : e.isLookup = true := by
  unfold requireQualified at h
  split at h
  · cases h; rfl
  · split at h
    · cases h; rfl
    · split at h
      · cases h; rfl
      · cases h

/-- Following a declaration ends at an interface, goes on with what the type stands for, or fails for a
reason that has nothing to do with embedding. -/
theorem interfaceWithin_step (decl current : Declared) (hops : Nat) :
    (∃ elems, (current.spec.type.unparen = .interface elems ∨ elems = []) ∧
        ∀ decl' k, p.interfaceWithin decl' (k + 1) current = .ok (current, elems)) ∨
      (∃ next, p.StandsFor current.scope current.spec.type.unparen next ∧
        p.interfaceWithin decl (hops + 1) current = p.interfaceWithin decl hops next) ∨
      ∃ e, p.interfaceWithin decl (hops + 1) current = .error e ∧ e.isInternal = false ∧
        ∀ root through, e ≠ .invalidInterface root (.embeddingCycle through) := by
  by_cases hparams : (!current.spec.typeParams.isEmpty) = true
  · exact .inr (.inr ⟨_, by rw [interfaceWithin, if_pos hparams], rfl, by simp⟩)
  cases htype : current.spec.type.unparen with
  | interface elems =>
    exact .inl ⟨elems, .inl rfl, by intros; rw [interfaceWithin, if_neg hparams, htype]⟩
  | name name =>
    cases hname : p.resolveName current.scope name with
    | declared next =>
      exact .inr (.inl ⟨next, .name hname, by simp only [interfaceWithin, if_neg hparams, htype, hname]⟩)
    | predeclared =>
      by_cases hany : name = "any"
      · refine .inl ⟨[], .inr rfl, ?_⟩
        intros
        simp only [interfaceWithin, if_neg hparams, htype, hname, if_pos hany]
      · simp only [interfaceWithin, if_neg hparams, htype, hname, if_neg hany]
        split <;> exact .inr (.inr ⟨_, rfl, rfl, by simp⟩)
    | unknown =>
      have hlookup := isLookup_unknownName current.scope name
      refine .inr (.inr ⟨unknownName current.scope name,
        by simp only [interfaceWithin, if_neg hparams, htype, hname], ?_, ?_⟩)
      · exact StubError.isInternal_of_isLookup hlookup
      · rintro root through h
        rw [h] at hlookup
        cases hlookup
  | qualified package name =>
    cases hname : p.requireQualified current.scope package name with
    | ok next =>
      exact .inr (.inl
        ⟨next, .qualified hname, by simp only [interfaceWithin, if_neg hparams, htype, hname]⟩)
    | error e =>
      have hlookup := isLookup_requireQualified hname
      refine .inr (.inr ⟨e, by simp only [interfaceWithin, if_neg hparams, htype, hname], ?_, ?_⟩)
      · exact StubError.isInternal_of_isLookup hlookup
      · rintro root through rfl
        cases hlookup
  | _ => exact .inr (.inr ⟨_, by rw [interfaceWithin, if_neg hparams, htype], rfl, by simp⟩)

theorem interfaceOf_error (h : p.interfaceOf decl = .error e) :
    e.isInternal = false ∧ ∀ root through, e ≠ .invalidInterface root (.embeddingCycle through) := by
  have hwithin : ∀ hops current, p.interfaceWithin decl hops current = .error e →
      e.isInternal = false ∧ ∀ root through, e ≠ .invalidInterface root (.embeddingCycle through) := by
    intro hops
    induction hops with
    | zero =>
      rintro current ⟨⟩
      exact ⟨rfl, by simp⟩
    | succ hops ih =>
      intro current h
      rcases p.interfaceWithin_step decl current hops with
        ⟨elems, -, hok⟩ | ⟨next, -, heq⟩ | ⟨e', herror, he'⟩
      · cases (hok decl hops).symm.trans h
      · exact ih next (heq.symm.trans h)
      · cases herror.symm.trans h
        exact he'
  exact hwithin hopLimit decl h

theorem interfaceOf_ok {motive : Declared → Prop} {target : Declared} {elems : List Element}
    (h : p.interfaceOf decl = .ok (target, elems)) (hdecl : motive decl)
    (hnext : ∀ current next, motive current →
      p.StandsFor current.scope current.spec.type.unparen next → motive next) :
    motive target ∧ (target.spec.type.unparen = .interface elems ∨ elems = []) ∧
      p.interfaceOf target = .ok (target, elems) := by
  have hwithin : ∀ hops current, motive current →
      p.interfaceWithin decl hops current = .ok (target, elems) →
      motive target ∧ (target.spec.type.unparen = .interface elems ∨ elems = []) ∧
        p.interfaceOf target = .ok (target, elems) := by
    intro hops
    induction hops with
    | zero =>
      intro current _ h
      cases h
    | succ hops ih =>
      intro current hcurrent h
      rcases p.interfaceWithin_step decl current hops with
        ⟨elems', htype, hok⟩ | ⟨next, hstands, heq⟩ | ⟨e, herror, -⟩
      · cases (hok decl hops).symm.trans h
        exact ⟨hcurrent, htype, hok target (hopLimit - 1)⟩
      · exact ih next (hnext current next hcurrent hstands) (heq.symm.trans h)
      · cases herror.symm.trans h
  exact hwithin hopLimit decl hdecl h

/-! ### Embedded elements -/

section Embedded

variable {named : Declared → Names → Except StubError Expansion} {interface : String}
  {scope : Scope}

theorem expandEmbeds_embed (claimed : Names) (type : TypeExpr) (elems : List Element) :
    p.expandEmbeds named interface scope claimed (.embed type :: elems) =
      andThen (p.expandEmbedded named interface scope claimed type) fun claimed =>
        p.expandEmbeds named interface scope claimed elems := by
  rw [expandEmbeds]
  rfl

theorem expandEmbedded_interface (claimed : Names) (elems : List Element) :
    p.expandEmbedded named interface scope claimed (.interface elems) =
      andThen (p.expandEmbeds named interface scope claimed elems) fun claimed =>
        .ok (.ofMethods interface scope claimed (Element.methods elems)) := by
  rw [expandEmbedded]
  rfl

section Brings

variable (p) (named) (interface) (scope)

/-- What an embedded element brings in, or all embedded ones among elements, as a function of the names
that were claimed before. -/
inductive Brings : TypeExpr ⊕ List Element → (Names → Except StubError Expansion) → Prop
  | named {type : TypeExpr} {decl : Declared} (h : p.StandsFor scope type decl) :
      Brings (.inl type) (named decl)
  | lookup {type : TypeExpr} {e : StubError} (h : e.isLookup = true) :
      Brings (.inl type) fun _ => .error e
  | error (h : p.resolveName scope "error" = .predeclared) :
      Brings (.inl (.name "error")) fun claimed =>
        .ok (.ofMethods interface scope claimed [errorMethod])
  | predeclared {name : String} (h : p.resolveName scope name = .predeclared)
      (hname : name ≠ "error") : Brings (.inl (.name name)) fun claimed => .ok (.nothing claimed)
  | constraint {type : TypeExpr} (h : type.onlyConstrains = true) :
      Brings (.inl type) fun claimed => .ok (.nothing claimed)
  | paren {elem : TypeExpr} {r : Names → Except StubError Expansion} (h : Brings (.inl elem) r) :
      Brings (.inl (.paren elem)) r
  | literal {elems : List Element} {r : Names → Except StubError Expansion}
      (h : Brings (.inr elems) r) :
      Brings (.inl (.interface elems)) fun claimed => andThen (r claimed) fun claimed =>
        .ok (.ofMethods interface scope claimed (Element.methods elems))
  | nil : Brings (.inr []) fun claimed => .ok (.nothing claimed)
  | method {name : String} {sig : Signature} {elems : List Element}
      {r : Names → Except StubError Expansion} (h : Brings (.inr elems) r) :
      Brings (.inr (.method name sig :: elems)) r
  | embed {type : TypeExpr} {elems : List Element} {r r' : Names → Except StubError Expansion}
      (h : Brings (.inl type) r) (h' : Brings (.inr elems) r') :
      Brings (.inr (.embed type :: elems)) fun claimed => andThen (r claimed) r'

end Brings

theorem brings_expandEmbeds {elems : List Element}
    (h : ∀ type, .embed type ∈ elems → p.Brings named interface scope (.inl type) fun claimed =>
      p.expandEmbedded named interface scope claimed type) :
    p.Brings named interface scope (.inr elems) fun claimed =>
      p.expandEmbeds named interface scope claimed elems := by
  induction elems with
  | nil => exact .nil
  | cons elem elems ih =>
    have hrest := ih fun type hmem => h type (mem_cons_of_mem _ hmem)
    cases elem with
    | method name sig => exact .method hrest
    | embed type =>
      simp only [expandEmbeds_embed]
      exact .embed (h type mem_cons_self) hrest

/-- Listing an embedded element goes by these steps. -/
theorem brings_expandEmbedded (t : TypeExpr) :
    p.Brings named interface scope (.inl t) fun claimed =>
      p.expandEmbedded named interface scope claimed t := by
  induction t using TypeExpr.partsInduction with
  | name name =>
    cases h : p.resolveName scope name with
    | declared decl =>
      simp only [expandEmbedded, h]
      exact .named (.name h)
    | predeclared =>
      simp only [expandEmbedded, h]
      by_cases hname : name = "error"
      · subst hname
        exact .error h
      · simp only [if_neg hname]
        exact .predeclared h hname
    | unknown =>
      simp only [expandEmbedded, h]
      exact .lookup (isLookup_unknownName scope name)
  | qualified package name =>
    cases h : p.requireQualified scope package name with
    | ok decl =>
      simp only [expandEmbedded, h]
      exact .named (.qualified h)
    | error e =>
      simp only [expandEmbedded, h]
      exact .lookup (isLookup_requireQualified h)
  | generic base args _ _ => exact .lookup rfl
  | paren elem ih => exact .paren ih
  | interface elems ih =>
    simp only [expandEmbedded_interface]
    exact .literal (brings_expandEmbeds fun type hmem => ih (.embed type) hmem)
  | _ => exact .constraint rfl

end Embedded

variable {Q : Names → Except StubError Expansion → Prop} (hQ : Listing Q)

include hQ

/-- Embedded elements keep such a property, if the declared types that they name keep it. -/
theorem Brings.listing {named : Declared → Names → Except StubError Expansion} {interface : String}
    {x : TypeExpr ⊕ List Element} {r : Names → Except StubError Expansion}
    (h : p.Brings named interface scope x r)
    (hnamed : ∀ decl claimed, Q claimed (named decl claimed)) : ∀ claimed, Q claimed (r claimed) := by
  induction h with
  | named _ => exact hnamed _
  | lookup he => exact fun _ => hQ.error (StubError.isInternal_of_isLookup he)
  | error _ => exact fun claimed => hQ.own interface scope claimed [errorMethod]
  | predeclared _ _ => exact hQ.nothing
  | constraint _ => exact hQ.nothing
  | paren _ ih => exact ih
  | literal _ ih =>
    exact fun claimed => hQ.andThen (ih claimed) fun claimed => hQ.own interface scope claimed _
  | nil => exact hQ.nothing
  | method _ ih => exact ih
  | embed _ _ ih ih' => exact fun claimed => hQ.andThen (ih claimed) ih'

/-- The methods of a declared interface, whatever interfaces are being listed around it. -/
theorem listing_expandDeclared (fresh : List String) (root : Option String) (decl : Declared)
    (claimed : Names) : Q claimed (p.expandDeclared fresh root decl claimed) := by
  induction hn : fresh.length using Nat.strongRecOn generalizing fresh root decl claimed with
  | _ n ih =>
  subst hn
  rw [expandDeclared]
  split
  · rename_i hinterface
    exact hQ.error (interfaceOf_error hinterface).1
  · dsimp only
    split
    · rename_i hmem
      refine (brings_expandEmbedded _).listing hQ (fun decl claimed => ?_) claimed
      split
      · exact hQ.nothing claimed
      · exact ih _ (Names.length_without_lt hmem) _ _ decl claimed rfl
    · exact hQ.error rfl

/-- The methods of a declared interface. -/
theorem listing_expand (decl : Declared) (claimed : Names) :
    Q claimed (p.expand decl claimed) :=
  listing_expandDeclared hQ _ _ decl claimed

omit hQ

/-- No name is listed twice for an interface, and none that was claimed before. -/
theorem claims_expand {e : Expansion} (h : p.expand decl claimed = .ok e) : e.Claims claimed := by
  have hlisting : Listing fun claimed r => ∀ e, r = .ok e → e.Claims claimed := by
    refine ⟨?_, ?_, ?_, ?_⟩
    · intro _ _ _ _ h
      cases h
    · rintro claimed _ ⟨⟩
      exact .nothing claimed
    · rintro interface scope claimed methods _ ⟨⟩
      exact Expansion.claims_ofMethods interface scope claimed methods
    · intro claimed a r ha hr e h
      cases r with
      | error e => cases h
      | ok b =>
        cases h
        exact (ha a rfl).append (hr b rfl)
  exact listing_expand hlisting decl claimed e h

/-- Listing the methods of an interface never ends in an internal error. -/
theorem isInternal_expand (h : p.expand decl claimed = .error e) : e.isInternal = false := by
  have hlisting : Listing fun _ r => ∀ e, r = .error e → e.isInternal = false := by
    refine ⟨?_, ?_, ?_, ?_⟩
    · rintro _ e he _ ⟨⟩
      exact he
    · intro _ _ h
      cases h
    · intro _ _ _ _ _ h
      cases h
    · intro claimed a r _ hr e h
      cases r with
      | error e => cases h; exact hr _ rfl
      | ok b => cases h
  exact listing_expand hlisting decl claimed e h

end Program

end Stubwright
