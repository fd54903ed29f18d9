import Stubwright.Proofs.Expansion.Traversal
import Stubwright.Proofs.Selector

/-!
# Interfaces that embed themselves

The listing of an interface follows names from declaration to declaration, and ends because no
interface is entered while it is being listed.  Interfaces are told apart by their names, so what is
found out is that embeddings come back to a name.  For a type that is found under its name this is a
cycle of embeddings; for a later declaration of the same name it need not be one.

* `Program.Lists.no_return`: where a listing succeeds, no embeddings come back to a name.
* `Program.exists_return`: where a cycle is reported, they do.
* `Program.expandDeclared_congr`: a listing does not depend on how many names may be entered.
* `Program.expand_cycles`: all listings; `Program.expand_shadowed` is one that reports a cycle where
  there is none.
-/

namespace Stubwright.Program

open List

open Relation (ReflTransGen TransGen)

variable {p : Program} {scope : Scope} {t : TypeExpr} {decl x y : Declared} {root : Option String}
  {elems : List Element} {target : Declared} {claimed : Names}

/-- An interface embeds another one: its literal, or a literal that is embedded there, has a name that
leads to the other. -/
def EmbedsInterface (p : Program) (x y : Declared) : Prop :=
  ∃ elems decl elems', p.interfaceOf x = .ok (x, elems) ∧
    p.Mentions x.scope (.interface elems) decl ∧ p.interfaceOf decl = .ok (y, elems')

/-- The interface that a declared type leads to reaches a cycle: an interface that it embeds, directly
or not, or itself, embeds itself by way of others. -/
def ReachesCycle (p : Program) (decl : Declared) : Prop :=
  ∃ x elems y, p.interfaceOf decl = .ok (x, elems) ∧ ReflTransGen p.EmbedsInterface x y ∧
    TransGen p.EmbedsInterface y y

/-- From the interface that a declared type leads to, embeddings come to a name and come back to it. -/
def ReturnsTo (p : Program) (decl : Declared) (name : String) : Prop :=
  ∃ x elems y z, p.interfaceOf decl = .ok (x, elems) ∧ ReflTransGen p.EmbedsInterface x y ∧
    TransGen p.EmbedsInterface y z ∧ y.qualifiedName = name ∧ z.qualifiedName = name

theorem ReachesCycle.exists_returnsTo (h : p.ReachesCycle decl) : ∃ name, p.ReturnsTo decl name := by
  obtain ⟨x, elems, y, hof, hy, hcycle⟩ := h
  exact ⟨_, x, elems, y, y, hof, hy, hcycle, rfl, rfl⟩

/-! ## Where declarations lead -/

theorem StandsFor.isFirst (h : p.StandsFor scope t decl) : IsFirst decl := by
  cases h with
  | @name name decl h =>
    have hresolve : p.resolveType? scope (.name name) = some decl := by rw [resolveType?, h]
    exact isFirst_of_resolveType? hresolve
  | qualified h =>
    unfold requireQualified at h
    split at h
    · cases h
    · split at h
      · cases h
      · split at h
        · cases h
        · rename_i hlookup
          cases h
          exact isFirst_of_lookup? hlookup

theorem Mentions.isFirst (h : p.Mentions scope t decl) : IsFirst decl := by
  induction h with
  | named h => exact h.isFirst
  | paren _ ih => exact ih
  | literal _ _ ih => exact ih

theorem Mentions.mem (hscope : p.IsScope scope) (h : p.Mentions scope t decl) :
    decl ∈ p.typeDecls := by
  induction h with
  | named h => exact h.mem hscope
  | paren _ ih => exact ih
  | literal _ _ ih => exact ih

theorem interfaceOf_self
    (h : p.interfaceOf decl = .ok (target, elems)) : p.interfaceOf target = .ok (target, elems) :=
  (interfaceOf_ok (motive := fun _ => True) h trivial fun _ _ _ _ => trivial).2.2

/-- A declaration leads to itself, or to one that is found under its name. -/
theorem isFirst_of_interfaceOf (hdecl : IsFirst decl)
    (h : p.interfaceOf decl = .ok (target, elems)) : IsFirst target :=
  (interfaceOf_ok h hdecl fun _ _ _ hstands => hstands.isFirst).1

theorem EmbedsInterface.mem (h : p.EmbedsInterface x y) (hx : x ∈ p.typeDecls) :
    y ∈ p.typeDecls := by
  obtain ⟨elems, decl, elems', -, hdecl, hof⟩ := h
  exact mem_of_interfaceOf (hdecl.mem (isScope_of_mem hx).1) hof

theorem EmbedsInterface.isFirst (h : p.EmbedsInterface x y) : IsFirst y := by
  obtain ⟨elems, decl, elems', -, hdecl, hof⟩ := h
  exact isFirst_of_interfaceOf hdecl.isFirst hof

theorem mem_of_reflTransGen (h : ReflTransGen p.EmbedsInterface x y) (hx : x ∈ p.typeDecls) :
    y ∈ p.typeDecls := by
  induction h with
  | refl => exact hx
  | tail _ hstep ih => exact hstep.mem ih

/-! ## Listings that succeed -/

/-- An interface is listed while the names of `fresh` may be entered. -/
def Lists (p : Program) (fresh : List String) (x : Declared) : Prop :=
  ∃ root decl elems claimed e, p.interfaceOf decl = .ok (x, elems) ∧
    p.expandDeclared fresh root decl claimed = .ok e

namespace Lists

variable {fresh : List String} {x y : Declared}

theorem mem (h : p.Lists fresh x) : x.qualifiedName ∈ fresh := by
  obtain ⟨root, decl, elems, claimed, e, hof, hok⟩ := h
  by_contra hmem
  rw [expandDeclared_of_not_mem hof hmem] at hok
  cases hok

theorem step (h : p.Lists fresh x) (hxy : p.EmbedsInterface x y) :
    p.Lists (Names.without x.qualifiedName fresh) y := by
  have hmem := h.mem
  obtain ⟨root, decl, elems, claimed, e, hof, hok⟩ := h
  obtain ⟨elems', decl', elems₁, hself, hmentions, hof'⟩ := hxy
  cases (interfaceOf_self hof).symm.trans hself
  rw [expandDeclared_of_mem hof hmem] at hok
  obtain ⟨claimed', e', hok'⟩ := ok_of_mentions hmentions hok
  rcases expandNested_cases _ _ decl' claimed' with ⟨name, hnone, -⟩ | ⟨-, heq⟩
  · cases (interfaceOf_of_notAnInterface hnone).symm.trans hof'
  · exact ⟨_, decl', elems₁, claimed', e', hof', heq.symm.trans hok'⟩

theorem walk (h : p.Lists fresh x) (hxy : ReflTransGen p.EmbedsInterface x y) :
    ∃ fresh', p.Lists fresh' y ∧ fresh' ⊆ fresh := by
  induction hxy with
  | refl => exact ⟨fresh, h, List.Subset.refl _⟩
  | tail _ hstep ih =>
    obtain ⟨fresh', hlists, hsub⟩ := ih
    exact ⟨_, hlists.step hstep, List.Subset.trans (filter_subset_self _) hsub⟩

/-- No chain of embeddings comes back to the name of a listed interface. -/
theorem no_return (h : p.Lists fresh x) (hxy : TransGen p.EmbedsInterface x y) :
    y.qualifiedName ≠ x.qualifiedName := by
  obtain ⟨z, hxz, hzy⟩ := TransGen.head'_iff.1 hxy
  obtain ⟨fresh', hlists, hsub⟩ := (h.step hxz).walk hzy
  have hmem := hsub hlists.mem
  rw [Names.without, mem_filter] at hmem
  exact bne_iff_ne.1 hmem.2

end Lists

/-! ## Cycles that are reported -/

/-- A cycle that is reported is one, unless the name it is reported for could not be entered from the
start. -/
theorem exists_return {fresh : List String} {name through : String}
    (h : p.expandDeclared fresh root decl claimed
      = .error (.invalidInterface name (.embeddingCycle through))) :
    ∃ x elems z, p.interfaceOf decl = .ok (x, elems) ∧ ReflTransGen p.EmbedsInterface x z ∧
      z.qualifiedName = through ∧
      (through ∉ fresh ∨ ∃ y, ReflTransGen p.EmbedsInterface x y ∧ TransGen p.EmbedsInterface y z ∧
        y.qualifiedName = through) := by
  induction hn : fresh.length using Nat.strongRecOn generalizing fresh root decl claimed with
  | _ n ih =>
  subst hn
  cases hof : p.interfaceOf decl with
  | error e =>
    rw [expandDeclared_of_error hof] at h
    cases h
    exact absurd rfl ((interfaceOf_error hof).2 _ _)
  | ok r =>
    obtain ⟨x, elems⟩ := r
    by_cases hmem : x.qualifiedName ∈ fresh
    · rw [expandDeclared_of_mem hof hmem] at h
      rcases (brings_expandEmbedded _).failsFor _ h with hlookup | ⟨decl', claimed', hmentions, h⟩
      · cases hlookup
      rcases expandNested_cases _ _ decl' claimed' with ⟨_, _, hok⟩ | ⟨-, heq⟩
      · cases hok.symm.trans h
      obtain ⟨x', elems', z, hof', hz, hname, hcycle⟩ :=
        ih _ (Names.length_without_lt hmem) (heq.symm.trans h) rfl
      have hstep : p.EmbedsInterface x x' :=
        ⟨elems, decl', elems', interfaceOf_self hof, hmentions, hof'⟩
      refine ⟨x, elems, z, rfl, hz.head hstep, hname, ?_⟩
      rcases hcycle with hnot | ⟨y, hy, hyz, hyname⟩
      · -- the name was taken away here, or it was never there
        by_cases hx : x.qualifiedName = through
        · exact .inr ⟨x, .refl, TransGen.head' hstep hz, hx⟩
        · refine .inl fun hthrough => hnot ?_
          rw [Names.without, mem_filter]
          exact ⟨hthrough, bne_iff_ne.2 (Ne.symm hx)⟩
      · exact .inr ⟨y, hy.head hstep, hyz, hyname⟩
    · rw [expandDeclared_of_not_mem hof hmem] at h
      cases h
      exact ⟨x, elems, x, rfl, .refl, rfl, .inl hmem⟩

/-! ## The names that may be entered -/

theorem expandEmbedded_congr {named named' : Declared → Names → Except StubError Expansion}
    {interface : String} (t : TypeExpr) :
    (∀ decl claimed, p.Mentions scope t decl → named decl claimed = named' decl claimed) →
      ∀ claimed, p.expandEmbedded named interface scope claimed t =
        p.expandEmbedded named' interface scope claimed t := by
  induction t using TypeExpr.partsInduction with
  | name name =>
    intro hnamed claimed
    rw [expandEmbedded, expandEmbedded]
    split
    · rename_i hname
      exact hnamed _ _ (.named (.name hname))
    · rfl
    · rfl
  | qualified package name =>
    intro hnamed claimed
    rw [expandEmbedded, expandEmbedded]
    split
    · rename_i hqualified
      exact hnamed _ _ (.named (.qualified hqualified))
    · rfl
  | paren elem ih => exact fun hnamed claimed => ih (fun decl c h => hnamed decl c (.paren h)) claimed
  | interface elems ih =>
    intro hnamed claimed
    have hembeds : ∀ rest : List Element, (∀ elem ∈ rest, elem ∈ elems) → ∀ claimed,
        p.expandEmbeds named interface scope claimed rest =
          p.expandEmbeds named' interface scope claimed rest := by
      intro rest
      induction rest with
      | nil => exact fun _ _ => rfl
      | cons elem rest ihrest =>
        intro hmem claimed
        have hrest := ihrest fun elem h => hmem elem (mem_cons_of_mem _ h)
        cases elem with
        | method name sig => exact hrest claimed
        | embed type =>
          have helem := hmem _ mem_cons_self
          rw [expandEmbeds_embed, expandEmbeds_embed, funext hrest,
            ih (.embed type) helem (fun decl c h => hnamed decl c (.literal helem h)) claimed]
    rw [expandEmbedded_interface, expandEmbedded_interface, hembeds elems (fun _ h => h) claimed]
  | _ => exact fun _ _ => rfl

/-- A listing does not depend on which names may be entered, beyond the names of the program. -/
theorem expandDeclared_congr {fresh fresh' : List String}
    (hdecl : decl ∈ p.typeDecls) (hfresh : ∀ name ∈ p.typeNames, name ∈ fresh ↔ name ∈ fresh') :
    p.expandDeclared fresh root decl claimed = p.expandDeclared fresh' root decl claimed := by
  induction hn : fresh.length using Nat.strongRecOn generalizing fresh fresh' root decl claimed with
  | _ n ih =>
  subst hn
  cases hof : p.interfaceOf decl with
  | error e => rw [expandDeclared_of_error hof, expandDeclared_of_error hof]
  | ok r =>
    obtain ⟨x, elems⟩ := r
    have hx := mem_of_interfaceOf hdecl hof
    have hname : x.qualifiedName ∈ fresh ↔ x.qualifiedName ∈ fresh' :=
      hfresh _ (mem_map_of_mem hx)
    by_cases hmem : x.qualifiedName ∈ fresh
    · rw [expandDeclared_of_mem hof hmem, expandDeclared_of_mem hof (hname.1 hmem)]
      refine expandEmbedded_congr _ ?_ claimed
      intro decl' claimed' hmentions
      have hrest : ∀ name ∈ p.typeNames, name ∈ Names.without x.qualifiedName fresh ↔
          name ∈ Names.without x.qualifiedName fresh' := by
        intro name hmem'
        rw [Names.without, Names.without, mem_filter, mem_filter, hfresh name hmem']
      have hdecl' := hmentions.mem (isScope_of_mem hx).1
      rw [expandNested, expandNested, ih _ (Names.length_without_lt hmem) hdecl' hrest rfl]
    · rw [expandDeclared_of_not_mem hof hmem, expandDeclared_of_not_mem hof (mt hname.2 hmem)]

/-! ## All listings -/

/-- For a type that is found under its name, embeddings that come back to a name are a cycle. -/
theorem ReturnsTo.reachesCycle {source : PackageSource} {roots : List String}
    (hload : load source roots = .ok p) (hdecl : decl ∈ p.typeDecls)
    (hlookup : p.lookup? ⟨decl.package.path, decl.name⟩ = some decl) {name : String}
    (h : p.ReturnsTo decl name) : p.ReachesCycle decl := by
  obtain ⟨x, elems, y, z, hof, hy, hyz, hyname, hzname⟩ := h
  obtain ⟨pkg, -, hfound⟩ := Option.bind_eq_some_iff.1 hlookup
  have hymem := mem_of_reflTransGen hy (mem_of_interfaceOf hdecl hof)
  have hzmem := mem_of_reflTransGen hyz.to_reflTransGen hymem
  have hyfirst : IsFirst y := by
    rcases hy.cases_tail with rfl | ⟨_, -, hstep⟩
    · exact isFirst_of_interfaceOf (isFirst_of_lookup? hfound) hof
    · exact hstep.isFirst
  have hzfirst : IsFirst z := by
    obtain ⟨_, -, hstep⟩ := TransGen.tail'_iff.1 hyz
    exact hstep.isFirst
  rw [eq_of_qualifiedName hload hzmem hymem hzfirst hyfirst (hzname.trans hyname.symm)] at hyz
  exact ⟨x, elems, y, hof, hy, hyz⟩

/-- Listing an interface ends by itself, however many names may be entered.  It fails if embeddings
come back to a name, and so if a cycle of embeddings is reached; it reports a cycle only if they come
back to the name it is reported for, and for a type that is found under its name only if a cycle of
embeddings is reached. -/
theorem expand_cycles {source : PackageSource} {roots : List String}
    (hload : load source roots = .ok p) {decl : Declared} (hdecl : decl ∈ p.typeDecls)
    (claimed : Names) :
    (∀ names, p.typeNames ⊆ names → p.expandDeclared names none decl claimed = p.expand decl claimed) ∧
      (p.ReachesCycle decl → ∃ e, p.expand decl claimed = .error e) ∧
      (∀ through, p.ReturnsTo decl through → ∃ e, p.expand decl claimed = .error e) ∧
      ∀ name through,
        p.expand decl claimed = .error (.invalidInterface name (.embeddingCycle through)) →
          p.ReturnsTo decl through ∧
          (p.lookup? ⟨decl.package.path, decl.name⟩ = some decl → p.ReachesCycle decl) := by
  have hfails : ∀ through, p.ReturnsTo decl through → ∃ e, p.expand decl claimed = .error e := by
    rintro through ⟨x, elems, y, z, hof, hy, hz, hyname, hzname⟩
    cases hexpand : p.expand decl claimed with
    | error e => exact ⟨e, rfl⟩
    | ok e =>
      have hlists : p.Lists p.typeNames x := ⟨none, decl, elems, claimed, e, hof, hexpand⟩
      obtain ⟨fresh, hlists, -⟩ := hlists.walk hy
      exact absurd (hzname.trans hyname.symm) (hlists.no_return hz)
  refine ⟨?_, ?_, hfails, ?_⟩
  · intro names hnames
    exact expandDeclared_congr hdecl fun name hname => ⟨fun _ => hname, fun _ => hnames hname⟩
  · intro h
    obtain ⟨name, hname⟩ := h.exists_returnsTo
    exact hfails name hname
  · intro name through h
    obtain ⟨x, elems, z, hof, hz, hthrough, hcycle⟩ := exists_return h
    rcases hcycle with hnot | ⟨y, hy, hyz, hname⟩
    · have hmem := mem_of_reflTransGen hz (mem_of_interfaceOf hdecl hof)
      exact absurd (hthrough ▸ mem_map_of_mem hmem) hnot
    · have hreturns : p.ReturnsTo decl through := ⟨x, elems, y, z, hof, hy, hyz, hname, hthrough⟩
      exact ⟨hreturns, fun hlookup => hreturns.reachesCycle hload hdecl hlookup⟩

/-- An interface that embeds one on a cycle, by way of a literal and of another name for it. -/
def cycleText : String :=
  "package a;type(A interface\x7bM();B\x7d;B interface\x7bC\x7d;C interface\x7binterface\x7bD\x7d\x7d;D B)"

/-- What is declared in this file. -/
def cycleFile : SourceFile :=
  (SourceFile.parse cycleText).toOption.getD default

/-- The first type of this file. -/
def cycleDecl : Declared :=
  (single "m/a" "a.go" cycleText cycleFile).typeDecls.headD default

/-- The interface that does not embed itself reaches the cycle, and the name on it is reported. -/
theorem expand_cycles_behindLiteral :
    ∃ p, load ((Shelf.empty none).addFile "m/a" "a.go" cycleText).toSource ["m/a"] = .ok p ∧
      cycleDecl ∈ p.typeDecls ∧
      p.lookup? ⟨cycleDecl.package.path, cycleDecl.name⟩ = some cycleDecl ∧
      p.expand cycleDecl ["M"] = .error (.invalidInterface "m/a.A" (.embeddingCycle "m/a.B")) ∧
      p.ReturnsTo cycleDecl "m/a.B" ∧ p.ReachesCycle cycleDecl := by
  have hparse : SourceFile.parse cycleText = .ok cycleFile := by decide +kernel
  have hload := load_single "m/a" "a.go" hparse (by decide +kernel) (by decide)
  have hmem : cycleDecl ∈ (single "m/a" "a.go" cycleText cycleFile).typeDecls := by decide +kernel
  have hlookup : (single "m/a" "a.go" cycleText cycleFile).lookup?
      ⟨cycleDecl.package.path, cycleDecl.name⟩ = some cycleDecl := by decide +kernel
  have herror : (single "m/a" "a.go" cycleText cycleFile).expand cycleDecl ["M"] =
      .error (.invalidInterface "m/a.A" (.embeddingCycle "m/a.B")) := by decide +kernel
  obtain ⟨-, -, -, hreports⟩ := expand_cycles hload hmem ["M"]
  obtain ⟨hreturns, hcycle⟩ := hreports _ _ herror
  exact ⟨_, hload, hmem, hlookup, herror, hreturns, hcycle hlookup⟩

/-- A file where a second type of a name embeds the first. -/
def shadowedText : String :=
  "package a;type(A interface\x7bX()\x7d;A interface\x7bA\x7d)"

/-- What is declared in this file. -/
def shadowedFile : SourceFile where
  package := "a"
  packageSpan := ⟨0, 9⟩
  imports := []
  decls := [.types ⟨10, 47⟩
    [⟨"A", ⟨15, 31⟩, [], false, .interface [.method "X" ⟨[], []⟩]⟩,
      ⟨"A", ⟨32, 46⟩, [], false, .interface [.embed (.name "A")]⟩]]

/-- One of the types of this file. -/
def shadowedDecl (i : Nat) : Declared :=
  { firstDecl shadowedText shadowedFile with spec := shadowedFile.typeSpecs.getD i default }

theorem interfaceOf_shadowed :
    (single "m/a" "a.go" shadowedText shadowedFile).interfaceOf (shadowedDecl 0)
        = .ok (shadowedDecl 0, [.method "X" ⟨[], []⟩]) ∧
      (single "m/a" "a.go" shadowedText shadowedFile).interfaceOf (shadowedDecl 1)
        = .ok (shadowedDecl 1, [.embed (.name "A")]) :=
  ⟨rfl, rfl⟩

/-- In this file only the second type embeds an interface, the first. -/
theorem embedsInterface_shadowed {i : Nat} (hi : i < 2)
    (h : (single "m/a" "a.go" shadowedText shadowedFile).EmbedsInterface (shadowedDecl i) y) :
    i = 1 ∧ y = shadowedDecl 0 := by
  obtain ⟨elems, decl, elems', hof, hmentions, hy⟩ := h
  obtain ⟨hfirst, hsecond⟩ := interfaceOf_shadowed
  have hname : (single "m/a" "a.go" shadowedText shadowedFile).resolveName (shadowedDecl 1).scope "A"
      = .declared (shadowedDecl 0) := by decide +kernel
  obtain rfl | rfl : i = 0 ∨ i = 1 := by omega
  · cases hfirst.symm.trans hof
    cases hmentions with
    | named h => cases h
    | literal hmem _ => simp at hmem
  · cases hsecond.symm.trans hof
    cases hmentions with
    | named h => cases h
    | literal hmem hmentions =>
      cases mem_singleton.1 hmem
      cases hmentions with
      | named h =>
        cases h with
        | name h =>
          cases hname.symm.trans h
          cases hfirst.symm.trans hy
          exact ⟨rfl, rfl⟩

/-- A cycle is reported for the second type, although its embeddings end at the first. -/
theorem expand_shadowed :
    ∃ p, load ((Shelf.empty none).addFile "m/a" "a.go" shadowedText).toSource ["m/a"] = .ok p ∧
      shadowedDecl 1 ∈ p.typeDecls ∧ p.lookup? ⟨"m/a", "A"⟩ = some (shadowedDecl 0) ∧
      p.expand (shadowedDecl 1) [] = .error (.invalidInterface "m/a.A" (.embeddingCycle "m/a.A")) ∧
      ¬p.ReachesCycle (shadowedDecl 1) := by
  have hparse : SourceFile.parse shadowedText = .ok shadowedFile := by decide +kernel
  have hload := load_single "m/a" "a.go" hparse rfl (by decide)
  refine ⟨_, hload, by decide +kernel, by decide +kernel, by decide +kernel, ?_⟩
  rintro ⟨x, elems, y, hof, hy, hcycle⟩
  cases interfaceOf_shadowed.2.symm.trans hof
  -- every interface that is embedded is the first, and it embeds none
  have hstuck : ∀ {z}, ¬(single "m/a" "a.go" shadowedText shadowedFile).EmbedsInterface
      (shadowedDecl 0) z := fun h => absurd (embedsInterface_shadowed (by decide) h).1 (by decide)
  have hends : ∀ {z}, TransGen (single "m/a" "a.go" shadowedText shadowedFile).EmbedsInterface
      (shadowedDecl 1) z → z = shadowedDecl 0 := by
    intro z h
    obtain ⟨u, hu, hz⟩ := TransGen.head'_iff.1 h
    cases (embedsInterface_shadowed (by decide) hu).2
    rcases hz.cases_head with heq | ⟨v, hv, -⟩
    · exact heq.symm
    · exact absurd hv hstuck
  rcases hy.cases_head with rfl | ⟨u, hu, hz⟩
  · exact absurd (hends hcycle) (by decide +kernel)
  · cases hends (TransGen.head' hu hz)
    obtain ⟨v, hv, -⟩ := TransGen.head'_iff.1 hcycle
    exact hstuck hv

end Stubwright.Program
