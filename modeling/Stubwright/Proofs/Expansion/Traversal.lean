import Stubwright.Proofs.Expansion

/-!
# Listed methods as a traversal

An interface and all that it embeds can be gone through depth first: what is embedded before what is
declared, in the order of the declaration, and as often as it is embedded.  Listing the methods of the
interface takes of this traversal the first method of each name that is not claimed.

* `Program.Mentions`: the declared types that an embedded element names.
  `Program.Brings.failsFor`, `Program.ok_of_mentions`: a listing fails for a reason in the element
  itself or in one of those, and succeeds only if all of them do.
-/

namespace Stubwright

open List

variable {e : StubError}

/-! ## Methods of a traversal -/

/-- A method where a traversal comes to it. -/
structure Listed where
  /-- The qualified name of the interface that the method is taken from. -/
  interface : String
  /-- Where its signature was written. -/
  scope : Scope
  method : Method
deriving DecidableEq

namespace Listed

/-- Methods that are declared together. -/
def ofMethods (interface : String) (scope : Scope) (methods : List Method) : List Listed :=
  methods.map fun m => ⟨interface, scope, m⟩

/-- The names of the methods. -/
def names (l : List Listed) : List String :=
  l.map (·.method.name)

/-- The methods whose names are neither among `earlier` nor those of methods before them. -/
def firsts (earlier : List String) : List Listed → List Listed
  | [] => []
  | x :: l =>
    (if x.method.name ∈ earlier then [] else [x]) ++ firsts (x.method.name :: earlier) l

@[simp] theorem names_append (l l' : List Listed) : names (l ++ l') = names l ++ names l' :=
  map_append

theorem firsts_congr {earlier earlier' : List String} (h : ∀ name, name ∈ earlier ↔ name ∈ earlier')
    (l : List Listed) : firsts earlier l = firsts earlier' l := by
  induction l generalizing earlier earlier' with
  | nil => rfl
  | cons x l ih =>
    have htail : ∀ name, name ∈ x.method.name :: earlier ↔ name ∈ x.method.name :: earlier' := by
      intro name
      rw [mem_cons, mem_cons, h]
    rw [firsts, firsts, ih htail]
    simp only [h]

theorem firsts_append (earlier : List String) (l l' : List Listed) :
    firsts earlier (l ++ l') = firsts earlier l ++ firsts (names l ++ earlier) l' := by
  induction l generalizing earlier with
  | nil => rfl
  | cons x l ih =>
    have hsame : ∀ name, name ∈ names l ++ x.method.name :: earlier ↔
        name ∈ names (x :: l) ++ earlier := by
      intro name
      simp only [names, mem_append, mem_cons, map_cons]
      tauto
    rw [cons_append, firsts, firsts, ih, append_assoc, firsts_congr hsame]

/-- Names that were claimed before only take methods away. -/
theorem firsts_append_left (claimed earlier : List String) (l : List Listed) :
    firsts (earlier ++ claimed) l = (firsts earlier l).filter (·.method.name ∉ claimed) := by
  induction l generalizing earlier with
  | nil => rfl
  | cons x l ih =>
    rw [firsts, firsts, filter_append, ← ih (x.method.name :: earlier), cons_append]
    by_cases hearlier : x.method.name ∈ earlier
    · rw [if_pos (mem_append_left _ hearlier), if_pos hearlier]
      rfl
    · by_cases hclaimed : x.method.name ∈ claimed
      · rw [if_pos (mem_append_right _ hclaimed), if_neg hearlier]
        simp [hclaimed]
      · rw [if_neg (by simp [hearlier, hclaimed]), if_neg hearlier]
        simp [hclaimed]

end Listed

/-- The methods of groups in order, each with the interface and the scope of its group. -/
def MethodGroup.listed (groups : List MethodGroup) : List Listed :=
  groups.flatMap fun group => Listed.ofMethods group.interface group.scope group.methods

@[simp] theorem MethodGroup.listed_append (groups groups' : List MethodGroup) :
    MethodGroup.listed (groups ++ groups') = MethodGroup.listed groups ++ MethodGroup.listed groups' :=
  flatMap_append

variable {l : List Listed}

namespace Expansion

variable {r : Except StubError Expansion}

/-! ## Steps of a listing -/

/-- Whether a listing succeeds, and else why it does not. -/
def outcome (r : Except StubError Expansion) : Except StubError Unit :=
  r.map fun _ => ()

theorem outcome_eq_error : outcome r = .error e ↔ r = .error e := by
  cases r with
  | error e' => exact ⟨fun h => congrArg _ (Except.error.inj h), fun h => congrArg _ (Except.error.inj h)⟩
  | ok a =>
    constructor <;>
    · intro h
      cases h

theorem exists_of_outcome (h : outcome r = .ok ()) : ∃ a, r = .ok a := by
  cases r with
  | error e => cases h
  | ok a => exact ⟨a, rfl⟩

theorem outcome_andThen {r' : Except StubError Expansion} {k : Names → Except StubError Expansion}
    (hr : outcome r = outcome r')
    (hk : ∀ claimed claimed', outcome (k claimed) = outcome (k claimed')) :
    outcome (andThen r k) = outcome (andThen r' k) := by
  cases r with
  | error e =>
    cases r' with
    | error e' => exact hr
    | ok a' => cases hr
  | ok a =>
    cases r' with
    | error e' => cases hr
    | ok a' =>
      have hsame := hk a.claimed a'.claimed
      rw [andThen, andThen]
      cases hb : k a.claimed <;> cases hb' : k a'.claimed <;> rw [hb, hb'] at hsame <;> cases hsame <;> rfl

/-- A step of a listing goes through some methods: it lists the first of each name, and claims all
their names. -/
structure Follows (claimed : Names) (l : List Listed) (e : Expansion) : Prop where
  listed : MethodGroup.listed e.groups = Listed.firsts claimed l
  mem_claimed : ∀ name, name ∈ e.claimed ↔ name ∈ Listed.names l ++ claimed

namespace Follows

theorem nothing (claimed : Names) : Follows claimed [] (nothing claimed) :=
  ⟨rfl, fun _ => Iff.rfl⟩

theorem append {claimed : Names} {l' : List Listed} {a b : Expansion} (ha : Follows claimed l a)
    (hb : Follows a.claimed l' b) :
    Follows claimed (l ++ l') ⟨a.groups ++ b.groups, b.claimed⟩ where
  listed := by
    rw [MethodGroup.listed_append, ha.listed, hb.listed, Listed.firsts_append,
      Listed.firsts_congr ha.mem_claimed]
  mem_claimed name := by
    rw [hb.mem_claimed, mem_append, ha.mem_claimed, Listed.names_append]
    simp only [mem_append]
    tauto

end Follows

theorem firsts_claim (interface : String) (scope : Scope) (claimed : Names) (ms : List Method) :
    Listed.ofMethods interface scope (claim claimed ms).1 =
        Listed.firsts claimed (Listed.ofMethods interface scope ms) ∧
      ∀ name, name ∈ (claim claimed ms).2 ↔
        name ∈ Listed.names (Listed.ofMethods interface scope ms) ++ claimed := by
  induction ms generalizing claimed with
  | nil => exact ⟨rfl, fun _ => Iff.rfl⟩
  | cons m ms ih =>
    rw [claim]
    by_cases hm : m.name ∈ claimed
    · obtain ⟨hkept, hclaimed⟩ := ih claimed
      have hsame : ∀ name, name ∈ claimed ↔ name ∈ m.name :: claimed := by
        intro name
        rw [mem_cons]
        exact ⟨.inr, fun h => h.elim (fun h => h ▸ hm) id⟩
      rw [if_pos (contains_iff_mem.2 hm)]
      refine ⟨?_, fun name => ?_⟩
      · rw [hkept, Listed.firsts_congr hsame]
        change _ = (if m.name ∈ claimed then [] else _) ++ _
        rw [if_pos hm]
        rfl
      · rw [hclaimed, mem_append, hsame]
        simp only [Listed.names, Listed.ofMethods, map_cons, mem_append, mem_cons]
        tauto
    · obtain ⟨hkept, hclaimed⟩ := ih (Names.insert m.name claimed)
      have hsame : ∀ name, name ∈ Names.insert m.name claimed ↔ name ∈ m.name :: claimed := by
        intro name
        rw [Names.mem_insert, mem_cons]
      rw [if_neg fun h => hm (contains_iff_mem.1 h)]
      refine ⟨?_, fun name => ?_⟩
      · change _ :: Listed.ofMethods interface scope _ = (if m.name ∈ claimed then [] else _) ++ _
        rw [if_neg hm, hkept, Listed.firsts_congr hsame]
        rfl
      · rw [hclaimed, mem_append, hsame]
        simp only [Listed.names, Listed.ofMethods, map_cons, mem_append, mem_cons]
        tauto

theorem follows_ofMethods (interface : String) (scope : Scope) (claimed : Names) (ms : List Method) :
    Follows claimed (Listed.ofMethods interface scope ms) (ofMethods interface scope claimed ms) := by
  obtain ⟨hkept, hclaimed⟩ := firsts_claim interface scope claimed ms
  rw [ofMethods]
  split
  · rename_i after hclaim
    rw [hclaim] at hkept hclaimed
    exact ⟨hkept, hclaimed⟩
  · rename_i kept after _ hclaim
    rw [hclaim] at hkept hclaimed
    exact ⟨(append_nil _).trans hkept, hclaimed⟩

end Expansion

namespace Program

open Expansion

variable {p : Program} {r : Names → Except StubError Expansion} {scope : Scope} {type : TypeExpr}
  {decl : Declared} {x : TypeExpr ⊕ List Element}

/-! ## What an element names -/

/-- An embedded element names a declared type: it is a name that stands for it, or an interface of
which an embedded element names it. -/
inductive Mentions (p : Program) (scope : Scope) : TypeExpr → Declared → Prop
  | named {type : TypeExpr} {decl : Declared} (h : p.StandsFor scope type decl) :
      Mentions p scope type decl
  | paren {elem : TypeExpr} {decl : Declared} (h : Mentions p scope elem decl) :
      Mentions p scope (.paren elem) decl
  | literal {elems : List Element} {type : TypeExpr} {decl : Declared}
      (hmem : .embed type ∈ elems) (h : Mentions p scope type decl) :
      Mentions p scope (.interface elems) decl

theorem StandsFor.unique {decl' : Declared} (h : p.StandsFor scope type decl)
    (h' : p.StandsFor scope type decl') : decl' = decl := by
  cases h with
  | name h =>
    cases h' with
    | name h' => exact Resolution.declared.inj (h'.symm.trans h)
  | qualified h =>
    cases h' with
    | qualified h' => exact Except.ok.inj (h'.symm.trans h)

section Element

variable {named : Declared → Names → Except StubError Expansion} {interface : String}
  {scope : Scope} {elems : List Element}

theorem expandEmbedded_standsFor (h : p.StandsFor scope type decl) (claimed : Names) :
    p.expandEmbedded named interface scope claimed type = named decl claimed := by
  cases h with
  | name h => rw [expandEmbedded, h]
  | qualified h => rw [expandEmbedded, h]

/-- Whether an element can be listed does not depend on the claimed names, if that holds for declared
types. -/
theorem Brings.outcome_eq (h : p.Brings named interface scope x r)
    (hnamed : ∀ decl claimed claimed',
      outcome (named decl claimed) = outcome (named decl claimed')) :
    ∀ claimed claimed', outcome (r claimed) = outcome (r claimed') := by
  induction h with
  | named _ => exact hnamed _
  | paren _ ih => exact ih
  | method _ ih => exact ih
  | literal _ ih =>
    exact fun claimed claimed' => outcome_andThen (ih claimed claimed') fun _ _ => rfl
  | embed _ _ ih ih' => exact fun claimed claimed' => outcome_andThen (ih claimed claimed') ih'
  | _ => exact fun _ _ => rfl

theorem Mentions.cons {elem : Element}
    (h : p.Mentions scope (.interface elems) decl) :
    p.Mentions scope (.interface (elem :: elems)) decl := by
  cases h with
  | named h => cases h
  | literal hmem h => exact .literal (mem_cons_of_mem _ hmem) h

/-- An element cannot be listed because of a name that stands for nothing, or because it names a type
that cannot be listed. -/
def FailsFor (p : Program) (named : Declared → Names → Except StubError Expansion) (scope : Scope)
    (e : StubError) (t : TypeExpr) : Prop :=
  e.isLookup = true ∨ ∃ decl claimed, p.Mentions scope t decl ∧ named decl claimed = .error e

theorem FailsFor.mono {t u : TypeExpr} (h : p.FailsFor named scope e t)
    (htu : ∀ decl, p.Mentions scope t decl → p.Mentions scope u decl) :
    p.FailsFor named scope e u := by
  rcases h with h | ⟨decl, claimed, hdecl, h⟩
  · exact .inl h
  · exact .inr ⟨decl, claimed, htu decl hdecl, h⟩

theorem Brings.failsFor (h : p.Brings named interface scope x r) : ∀ claimed, r claimed = .error e →
      p.FailsFor named scope e (x.elim id .interface) := by
  induction h with
  | named hdecl => exact fun claimed he => .inr ⟨_, claimed, .named hdecl, he⟩
  | lookup hlookup =>
    rintro claimed ⟨⟩
    exact .inl hlookup
  | paren _ ih => exact fun claimed he => (ih claimed he).mono fun _ => .paren
  | literal _ ih =>
    intro claimed he
    rcases error_of_andThen he with he | ⟨_, he⟩
    · exact ih claimed he
    · cases he
  | method _ ih => exact fun claimed he => (ih claimed he).mono fun _ => .cons
  | embed _ _ ih ih' =>
    intro claimed he
    rcases error_of_andThen he with he | ⟨claimed₁, he⟩
    · exact (ih claimed he).mono fun _ => .literal mem_cons_self
    · exact (ih' claimed₁ he).mono fun _ => .cons
  | _ =>
    intro claimed he
    cases he

theorem ok_of_expandEmbeds (hmem : .embed type ∈ elems) :
    ∀ {claimed e}, p.expandEmbeds named interface scope claimed elems = .ok e →
      ∃ claimed' e', p.expandEmbedded named interface scope claimed' type = .ok e' := by
  induction elems with
  | nil => cases hmem
  | cons elem elems ih =>
    intro claimed e h
    rcases mem_cons.1 hmem with rfl | htail
    · rw [expandEmbeds_embed] at h
      obtain ⟨a, b, ha, -, -⟩ := ok_of_andThen h
      exact ⟨claimed, a, ha⟩
    · cases elem with
      | method name sig => exact ih htail h
      | embed first =>
        rw [expandEmbeds_embed] at h
        obtain ⟨a, b, -, hb, -⟩ := ok_of_andThen h
        exact ih htail hb

/-- Where an element is listed, every declared type that it names is. -/
theorem ok_of_mentions {t : TypeExpr} (h : p.Mentions scope t decl) :
    ∀ {claimed e}, p.expandEmbedded named interface scope claimed t = .ok e →
      ∃ claimed' e', named decl claimed' = .ok e' := by
  induction h with
  | named h =>
    intro claimed e hok
    rw [expandEmbedded_standsFor h] at hok
    exact ⟨claimed, e, hok⟩
  | paren _ ih => exact ih
  | literal hmem _ ih =>
    intro claimed e hok
    rw [expandEmbedded_interface] at hok
    obtain ⟨a, b, ha, -, -⟩ := ok_of_andThen hok
    obtain ⟨claimed', e', hok'⟩ := ok_of_expandEmbeds hmem ha
    exact ih hok'

end Element

/-! ## Declared interfaces -/

/-- The methods that an embedded declared type brings in: none if it is no interface. -/
def expandNested (p : Program) (fresh : List String) (root : Option String) (decl : Declared)
    (claimed : Names) : Except StubError Expansion :=
  match p.expandDeclared fresh root decl claimed with
  | .error (.notAnInterface _) => .ok (.nothing claimed)
  | result => result

section Declared

variable {fresh : List String} {root : Option String} {decl target : Declared}
  {elems : List Element} {claimed : Names}

theorem expandDeclared_of_error (h : p.interfaceOf decl = .error e) :
    p.expandDeclared fresh root decl claimed = .error e := by
  rw [expandDeclared, h]

theorem expandDeclared_of_mem (h : p.interfaceOf decl = .ok (target, elems))
    (hmem : target.qualifiedName ∈ fresh) :
    p.expandDeclared fresh root decl claimed =
      p.expandEmbedded (p.expandNested (Names.without target.qualifiedName fresh)
          (some (root.getD target.qualifiedName)))
        target.qualifiedName target.scope claimed (.interface elems) := by
  rw [expandDeclared, h]
  exact dif_pos hmem

theorem expandDeclared_of_not_mem (h : p.interfaceOf decl = .ok (target, elems))
    (hmem : target.qualifiedName ∉ fresh) :
    p.expandDeclared fresh root decl claimed = .error (.invalidInterface
      (root.getD target.qualifiedName) (.embeddingCycle target.qualifiedName)) := by
  rw [expandDeclared, h]
  exact dif_neg hmem

theorem expandNested_cases (fresh : List String) (root : Option String) (decl : Declared)
    (claimed : Names) :
    (∃ name, p.expandDeclared fresh root decl claimed = .error (.notAnInterface name) ∧
      p.expandNested fresh root decl claimed = .ok (.nothing claimed)) ∨
    (∀ name, p.expandDeclared fresh root decl claimed ≠ .error (.notAnInterface name)) ∧
      p.expandNested fresh root decl claimed = p.expandDeclared fresh root decl claimed := by
  unfold expandNested
  split
  · rename_i name h
    exact .inl ⟨name, h, rfl⟩
  · rename_i h
    exact .inr ⟨h, rfl⟩

/-- Only the declaration itself can be no interface: where an embedded one is none, it is left out. -/
theorem interfaceOf_of_notAnInterface {name : String}
    (h : p.expandDeclared fresh root decl claimed = .error (.notAnInterface name)) :
    p.interfaceOf decl = .error (.notAnInterface name) := by
  cases hof : p.interfaceOf decl with
  | error e =>
    rw [expandDeclared_of_error hof] at h
    rw [Except.error.inj h]
  | ok r =>
    obtain ⟨target, elems⟩ := r
    by_cases hmem : target.qualifiedName ∈ fresh
    · rw [expandDeclared_of_mem hof hmem] at h
      rcases (brings_expandEmbedded _).failsFor _ h with hlookup | ⟨decl', claimed', -, h⟩
      · cases hlookup
      · rcases expandNested_cases _ _ decl' claimed' with ⟨_, _, hok⟩ | ⟨hne, heq⟩
        · cases hok.symm.trans h
        · exact absurd (heq.symm.trans h) (hne name)
    · rw [expandDeclared_of_not_mem hof hmem] at h
      cases h

theorem outcome_expandNested {claimed' : Names}
    (h : outcome (p.expandDeclared fresh root decl claimed) =
      outcome (p.expandDeclared fresh root decl claimed')) :
    outcome (p.expandNested fresh root decl claimed) =
      outcome (p.expandNested fresh root decl claimed') := by
  unfold expandNested
  cases hr : p.expandDeclared fresh root decl claimed with
  | error e =>
    cases hr' : p.expandDeclared fresh root decl claimed' with
    | error e' =>
      rw [hr, hr'] at h
      cases h
      cases e <;> rfl
    | ok b =>
      rw [hr, hr'] at h
      cases h
  | ok a =>
    cases hr' : p.expandDeclared fresh root decl claimed' with
    | error e' =>
      rw [hr, hr'] at h
      cases h
    | ok b => rfl

/-- Whether an interface can be listed does not depend on the claimed names. -/
theorem outcome_expandDeclared (fresh : List String) (root : Option String) (decl : Declared)
    (claimed claimed' : Names) :
    outcome (p.expandDeclared fresh root decl claimed) =
      outcome (p.expandDeclared fresh root decl claimed') := by
  induction hn : fresh.length using Nat.strongRecOn generalizing fresh root decl claimed claimed' with
  | _ n ih =>
  subst hn
  cases hof : p.interfaceOf decl with
  | error e => rw [expandDeclared_of_error hof, expandDeclared_of_error hof]
  | ok r =>
    obtain ⟨target, elems⟩ := r
    by_cases hmem : target.qualifiedName ∈ fresh
    · rw [expandDeclared_of_mem hof hmem, expandDeclared_of_mem hof hmem]
      refine (brings_expandEmbedded _).outcome_eq ?_ claimed claimed'
      intro decl claimed claimed'
      exact outcome_expandNested (ih _ (Names.length_without_lt hmem) _ _ decl claimed claimed' rfl)
    · rw [expandDeclared_of_not_mem hof hmem, expandDeclared_of_not_mem hof hmem]

end Declared

/-! ## The traversal -/

/-- What a traversal goes through. -/
inductive Part where
  /-- A declared interface. -/
  | declared (decl : Declared)
  /-- An element that an interface embeds, with the name of the interface and the scope it stands
  in. -/
  | embedded (interface : String) (scope : Scope) (type : TypeExpr)
  | embeds (interface : String) (scope : Scope) (elems : List Element)

/-- The methods of an interface, those of embedded elements before its own and as often as they are
embedded.  A literal belongs to the interface that embeds it, and so does the method of `error`. -/
inductive Traversal (p : Program) : Part → List Listed → Prop
  | declared {decl target : Declared} {elems : List Element} {l : List Listed}
      (hof : p.interfaceOf decl = .ok (target, elems))
      (h : Traversal p (.embedded target.qualifiedName target.scope (.interface elems)) l) :
      Traversal p (.declared decl) l
  | named {interface : String} {scope : Scope} {type : TypeExpr} {decl : Declared} {l : List Listed}
      (hdecl : p.StandsFor scope type decl) (h : Traversal p (.declared decl) l) :
      Traversal p (.embedded interface scope type) l
  | noInterface {interface : String} {scope : Scope} {type : TypeExpr} {decl : Declared}
      {name : String} (hdecl : p.StandsFor scope type decl)
      (hof : p.interfaceOf decl = .error (.notAnInterface name)) :
      Traversal p (.embedded interface scope type) []
  | error {interface : String} {scope : Scope} (h : p.resolveName scope "error" = .predeclared) :
      Traversal p (.embedded interface scope (.name "error"))
        (Listed.ofMethods interface scope [errorMethod])
  | predeclared {interface : String} {scope : Scope} {name : String}
      (h : p.resolveName scope name = .predeclared) (hname : name ≠ "error") :
      Traversal p (.embedded interface scope (.name name)) []
  | constraint {interface : String} {scope : Scope} {type : TypeExpr}
      (h : type.onlyConstrains = true) : Traversal p (.embedded interface scope type) []
  | paren {interface : String} {scope : Scope} {elem : TypeExpr} {l : List Listed}
      (h : Traversal p (.embedded interface scope elem) l) :
      Traversal p (.embedded interface scope (.paren elem)) l
  | literal {interface : String} {scope : Scope} {elems : List Element} {l : List Listed}
      (h : Traversal p (.embeds interface scope elems) l) :
      Traversal p (.embedded interface scope (.interface elems))
        (l ++ Listed.ofMethods interface scope (Element.methods elems))
  | nil {interface : String} {scope : Scope} : Traversal p (.embeds interface scope []) []
  | method {interface : String} {scope : Scope} {name : String} {sig : Signature}
      {elems : List Element} {l : List Listed} (h : Traversal p (.embeds interface scope elems) l) :
      Traversal p (.embeds interface scope (.method name sig :: elems)) l
  | embed {interface : String} {scope : Scope} {type : TypeExpr} {elems : List Element}
      {l l' : List Listed} (h : Traversal p (.embedded interface scope type) l)
      (h' : Traversal p (.embeds interface scope elems) l') :
      Traversal p (.embeds interface scope (.embed type :: elems)) (l ++ l')

theorem StandsFor.not_predeclared {name : String} (h : p.StandsFor scope (.name name) decl)
    (h' : p.resolveName scope name = .predeclared) : False := by
  cases h with
  | name h => cases h.symm.trans h'

theorem StandsFor.not_onlyConstrains (h : p.StandsFor scope type decl) :
    type.onlyConstrains = false := by
  cases h <;> rfl

theorem Traversal.interfaceOf_ok (h : p.Traversal (.declared decl) l) :
    p.interfaceOf decl ≠ .error e := by
  cases h with
  | declared hof _ =>
    intro he
    cases hof.symm.trans he

theorem Traversal.unique {part : Part} (h : p.Traversal part l) :
    ∀ {l'}, p.Traversal part l' → l' = l := by
  induction h with
  | declared hof _ ih =>
    intro l' h'
    cases h' with
    | declared hof' h' =>
      cases hof.symm.trans hof'
      exact ih h'
  | named hdecl h ih =>
    intro l' h'
    cases h' with
    | named hdecl' h' => exact ih (hdecl.unique hdecl' ▸ h')
    | noInterface hdecl' hof => exact absurd (hdecl.unique hdecl' ▸ hof) h.interfaceOf_ok
    | error hpre | predeclared hpre => exact (hdecl.not_predeclared hpre).elim
    | constraint htype => cases hdecl.not_onlyConstrains.symm.trans htype
    | paren => cases hdecl
    | literal => cases hdecl
  | noInterface hdecl hof =>
    intro l' h'
    cases h' with
    | named hdecl' h' => exact absurd (hdecl'.unique hdecl ▸ hof) h'.interfaceOf_ok
    | noInterface => rfl
    | error hpre => exact (hdecl.not_predeclared hpre).elim
    | predeclared => rfl
    | constraint => rfl
    | paren => cases hdecl
    | literal => cases hdecl
  | error hpre =>
    intro l' h'
    cases h' with
    | named hdecl | noInterface hdecl => exact (hdecl.not_predeclared hpre).elim
    | error => rfl
    | predeclared _ hname => exact absurd rfl hname
    | constraint htype => cases htype
  | predeclared hpre hname =>
    intro l' h'
    cases h' with
    | named hdecl => exact (hdecl.not_predeclared hpre).elim
    | noInterface => rfl
    | error => exact absurd rfl hname
    | predeclared => rfl
    | constraint => rfl
  | constraint htype =>
    intro l' h'
    cases h' with
    | named hdecl => cases hdecl.not_onlyConstrains.symm.trans htype
    | noInterface => rfl
    | error => cases htype
    | predeclared => rfl
    | constraint => rfl
    | paren => cases htype
    | literal => cases htype
  | paren _ ih =>
    intro l' h'
    cases h' with
    | named hdecl => cases hdecl
    | noInterface hdecl => cases hdecl
    | constraint htype => cases htype
    | paren h' => exact ih h'
  | literal _ ih =>
    intro l' h'
    cases h' with
    | named hdecl => cases hdecl
    | noInterface hdecl => cases hdecl
    | constraint htype => cases htype
    | literal h' => rw [ih h']
  | nil =>
    intro l' h'
    cases h'
    rfl
  | method _ ih =>
    intro l' h'
    cases h' with
    | method h' => exact ih h'
  | embed _ _ ih ih' =>
    intro l' h'
    cases h' with
    | embed h₁ h₂ => rw [ih h₁, ih' h₂]

/-- A listing that succeeds goes through the traversal of an element, if it does so for the declared
types that the element names. -/
theorem Brings.follows {named : Declared → Names → Except StubError Expansion} {interface : String}
    (h : p.Brings named interface scope x r)
    (hnamed : ∀ decl claimed e, named decl claimed = .ok e →
      (∃ l, p.Traversal (.declared decl) l ∧ e.Follows claimed l) ∨
        ∃ name, p.interfaceOf decl = .error (.notAnInterface name) ∧ e = .nothing claimed) :
    ∀ claimed e, r claimed = .ok e →
      ∃ l, p.Traversal (x.elim (.embedded interface scope) (.embeds interface scope)) l ∧
        e.Follows claimed l := by
  induction h with
  | named hdecl =>
    intro claimed e he
    rcases hnamed _ claimed e he with ⟨l, hl, hfollows⟩ | ⟨name, hof, rfl⟩
    · exact ⟨l, .named hdecl hl, hfollows⟩
    · exact ⟨[], .noInterface hdecl hof, .nothing claimed⟩
  | lookup _ =>
    intro claimed e he
    cases he
  | error hpre =>
    rintro claimed _ ⟨⟩
    exact ⟨_, .error hpre, follows_ofMethods ..⟩
  | predeclared hpre hname =>
    rintro claimed _ ⟨⟩
    exact ⟨[], .predeclared hpre hname, .nothing claimed⟩
  | constraint htype =>
    rintro claimed _ ⟨⟩
    exact ⟨[], .constraint htype, .nothing claimed⟩
  | paren _ ih =>
    intro claimed e he
    obtain ⟨l, hl, hfollows⟩ := ih claimed e he
    exact ⟨l, .paren hl, hfollows⟩
  | literal _ ih =>
    intro claimed e he
    obtain ⟨a, b, ha, hb, rfl⟩ := ok_of_andThen he
    obtain ⟨l, hl, hfollows⟩ := ih claimed a ha
    cases hb
    exact ⟨_, .literal hl, hfollows.append (follows_ofMethods ..)⟩
  | nil =>
    rintro claimed _ ⟨⟩
    exact ⟨[], .nil, .nothing claimed⟩
  | method _ ih =>
    intro claimed e he
    obtain ⟨l, hl, hfollows⟩ := ih claimed e he
    exact ⟨l, .method hl, hfollows⟩
  | embed _ _ ih ih' =>
    intro claimed e he
    obtain ⟨a, b, ha, hb, rfl⟩ := ok_of_andThen he
    obtain ⟨l, hl, hfollows⟩ := ih claimed a ha
    obtain ⟨l', hl', hfollows'⟩ := ih' a.claimed b hb
    exact ⟨l ++ l', .embed hl hl', hfollows.append hfollows'⟩

/-- A listing that succeeds goes through the traversal of an interface. -/
theorem follows_expandDeclared (fresh : List String) (root : Option String) (decl : Declared)
    (claimed : Names) (e : Expansion) (h : p.expandDeclared fresh root decl claimed = .ok e) :
    ∃ l, p.Traversal (.declared decl) l ∧ e.Follows claimed l := by
  induction hn : fresh.length using Nat.strongRecOn generalizing fresh root decl claimed e with
  | _ n ih =>
  subst hn
  cases hof : p.interfaceOf decl with
  | error err =>
    rw [expandDeclared_of_error hof] at h
    cases h
  | ok r =>
    obtain ⟨target, elems⟩ := r
    by_cases hmem : target.qualifiedName ∈ fresh
    · rw [expandDeclared_of_mem hof hmem] at h
      have hnested : ∀ decl claimed e, p.expandNested (Names.without target.qualifiedName fresh)
            (some (root.getD target.qualifiedName)) decl claimed = .ok e →
          (∃ l, p.Traversal (.declared decl) l ∧ e.Follows claimed l) ∨
            ∃ name, p.interfaceOf decl = .error (.notAnInterface name) ∧ e = .nothing claimed := by
        intro decl claimed e h
        rcases expandNested_cases _ _ decl claimed with ⟨name, hnone, hok⟩ | ⟨-, heq⟩
        · exact .inr ⟨name, interfaceOf_of_notAnInterface hnone, Except.ok.inj (h.symm.trans hok)⟩
        · exact .inl (ih _ (Names.length_without_lt hmem) _ _ decl claimed e (heq.symm.trans h) rfl)
      obtain ⟨l, hl, hfollows⟩ := (brings_expandEmbedded _).follows hnested _ _ h
      exact ⟨l, .declared hof hl, hfollows⟩
    · rw [expandDeclared_of_not_mem hof hmem] at h
      cases h

/-- No group of a listing is empty. -/
theorem methods_ne_nil_of_expand {claimed : Names} {e : Expansion}
    (h : p.expand decl claimed = .ok e) : ∀ group ∈ e.groups, group.methods ≠ [] := by
  have hlisting : Listing fun _ r => ∀ e, r = .ok e → ∀ group ∈ e.groups, group.methods ≠ [] := by
    refine ⟨?_, ?_, ?_, ?_⟩
    · intro _ _ _ _ h
      cases h
    · rintro claimed _ ⟨⟩ group hgroup
      cases hgroup
    · rintro interface scope claimed methods _ ⟨⟩ group hgroup
      rw [ofMethods] at hgroup
      split at hgroup
      · cases hgroup
      · rename_i hkept _
        cases mem_singleton.1 hgroup
        exact hkept
    · intro claimed a r ha hr e h group hgroup
      cases r with
      | error e => cases h
      | ok b =>
        cases h
        rcases mem_append.1 hgroup with hgroup | hgroup
        · exact ha a rfl group hgroup
        · exact hr b rfl group hgroup
  exact listing_expand hlisting decl claimed e h

/-- Listing an interface takes the first method of each name from its traversal, and names that were
claimed before only take methods away. -/
theorem expand_eq_firsts (p : Program) (decl : Declared) (claimed : Names) :
    (∀ error, p.expand decl claimed = .error error ↔ p.expand decl [] = .error error) ∧
      ∀ e, p.expand decl claimed = .ok e →
        (∃ l, (∀ l', p.Traversal (.declared decl) l' ↔ l' = l) ∧
          MethodGroup.listed e.groups = Listed.firsts claimed l) ∧
        e.names.Nodup ∧ (∀ name ∈ e.names, name ∉ claimed) ∧
        (∀ group ∈ e.groups, group.methods ≠ []) ∧
        (∀ name, name ∈ e.claimed ↔ name ∈ claimed ∨ name ∈ e.names) ∧
        ∃ e₀, p.expand decl [] = .ok e₀ ∧ MethodGroup.listed e.groups =
          (MethodGroup.listed e₀.groups).filter (·.method.name ∉ claimed) := by
  have hsame : outcome (p.expand decl claimed) = outcome (p.expand decl []) :=
    outcome_expandDeclared p.typeNames none decl claimed []
  refine ⟨?_, ?_⟩
  · intro error
    rw [← outcome_eq_error, ← outcome_eq_error, hsame]
  · intro e h
    obtain ⟨l, hl, hfollows⟩ := follows_expandDeclared _ _ _ _ _ h
    have hclaims := claims_expand h
    refine ⟨⟨l, fun l' => ⟨hl.unique, fun heq => heq ▸ hl⟩, hfollows.listed⟩, hclaims.nodup,
      hclaims.fresh, methods_ne_nil_of_expand h, hclaims.mem_claimed, ?_⟩
    rw [h] at hsame
    obtain ⟨e₀, h₀⟩ := exists_of_outcome hsame.symm
    obtain ⟨l₀, hl₀, hfollows₀⟩ := follows_expandDeclared _ _ _ _ _ h₀
    refine ⟨e₀, h₀, ?_⟩
    rw [hfollows.listed, hfollows₀.listed, hl.unique hl₀]
    exact Listed.firsts_append_left claimed [] l

/-- An interface that embeds another one twice, once in a literal, beside the predeclared `error`, a
struct and a union, and that declares a method of an embedded one again. -/
def embeddingText : String :=
  "package a;type(I interface\x7bB();error;J;S;interface\x7bC();J\x7d;~int|S;A()int\x7d;" ++
    "J interface\x7bA();D()\x7d;S struct\x7b\x7d)"

/-- What is declared in this file. -/
def embeddingFile : SourceFile :=
  (SourceFile.parse embeddingText).toOption.getD default

/-- The program of this file. -/
def embeddingProgram : Program :=
  ⟨[⟨"m/a", "a", [⟨"m/a/a.go", embeddingText, embeddingFile⟩]⟩], []⟩

/-- The first type of this file. -/
def embeddingDecl : Declared :=
  embeddingProgram.typeDecls.headD default

/-- One name is claimed before; the other methods are listed in the order of the traversal, each as
it is declared and the one of `error` as `Error() string`. -/
theorem expand_eq_firsts_embedding :
    ∃ e l, embeddingProgram.expand embeddingDecl ["D"] = .ok e ∧
      (∀ l', embeddingProgram.Traversal (.declared embeddingDecl) l' ↔ l' = l) ∧
      MethodGroup.listed e.groups = Listed.firsts ["D"] l ∧ e.names = ["Error", "A", "C", "B"] ∧
      e.groups.flatMap (·.methods) = [⟨"Error", ⟨[], [.unnamed (.name "string")]⟩⟩, ⟨"A", ⟨[], []⟩⟩,
        ⟨"C", ⟨[], []⟩⟩, ⟨"B", ⟨[], []⟩⟩] ∧
      e.claimed = ["A", "B", "C", "D", "Error"] := by
  have hlists : (embeddingProgram.expand embeddingDecl ["D"]).map
      (fun e => (e.names, e.groups.flatMap (·.methods), e.claimed)) =
      .ok (["Error", "A", "C", "B"], [⟨"Error", ⟨[], [.unnamed (.name "string")]⟩⟩, ⟨"A", ⟨[], []⟩⟩,
        ⟨"C", ⟨[], []⟩⟩, ⟨"B", ⟨[], []⟩⟩], ["A", "B", "C", "D", "Error"]) := by
    decide +kernel
  cases h : embeddingProgram.expand embeddingDecl ["D"] with
  | error error =>
    rw [h] at hlists
    cases hlists
  | ok e =>
    rw [h] at hlists
    obtain ⟨⟨l, hl, hlisted⟩, -⟩ := (expand_eq_firsts embeddingProgram embeddingDecl ["D"]).2 e h
    simp only [Except.map, Except.ok.injEq, Prod.mk.injEq] at hlists
    exact ⟨e, l, rfl, hl, hlisted, hlists⟩

end Program

end Stubwright
