import Stubwright.Proofs.Canonical

/-!
# Normal forms are found after finitely many steps

Bringing a type into normal form goes on with its parts and, at an alias, with the type of the alias
in another file, and what ends this is a count that function, interface and struct literals start
anew.  It ends all the same where no alias comes back to itself through such a literal.

* `canonical_ends`: canonical texts and shapes are those of finite normal forms.
-/

namespace Stubwright

open List

/-- Whether a type is a function, interface or struct literal, within which aliases are counted
anew. -/
def TypeExpr.isLiteral : TypeExpr → Bool
  | .func _ | .interface _ | .struct _ => true
  | _ => false

namespace Program

/-! ## Steps -/

/-- A type that is to be brought into normal form. -/
structure Call where
  /-- Where its names are looked up. -/
  scope : Scope
  /-- How many aliases were followed in a row. -/
  depth : Nat
  type : TypeExpr

/-- What bringing a type into normal form goes on with: `p.Calls next call`. -/
inductive Calls (p : Program) : Call → Call → Prop
  /-- The parts of the type. -/
  | child {scope : Scope} {depth : Nat} {t u : TypeExpr} (hu : u ∈ t.children) :
      Calls p ⟨scope, if t.isLiteral then 0 else depth, u⟩ ⟨scope, depth, t⟩
  | followed {scope : Scope} {depth : Nat} {t : TypeExpr} {decl : Declared}
      (href : t.isReference = true) (hdecl : p.resolveType? scope t = some decl)
      (halias : isFollowed decl = true) (hdepth : depth < hopLimit) :
      Calls p ⟨decl.scope, depth + 1, decl.spec.type⟩ ⟨scope, depth, t⟩

inductive RefersTo (p : Program) (scope : Scope) : Bool → TypeExpr → Declared → Prop
  | here {t : TypeExpr} {decl : Declared} (href : t.isReference = true)
      (hdecl : p.resolveType? scope t = some decl) : RefersTo p scope false t decl
  /-- One of its parts refers to it. -/
  | child {within : Bool} {t u : TypeExpr} {decl : Declared} (hu : u ∈ t.children)
      (h : RefersTo p scope within u decl) : RefersTo p scope (t.isLiteral || within) t decl

/-- An alias without type parameters refers to another one by way of others, through a literal or
not. -/
inductive LeadsTo (p : Program) : Bool → Declared → Declared → Prop
  /-- Its own type refers to it. -/
  | step {within : Bool} {a b : Declared} (ha : isFollowed a = true) (hb : isFollowed b = true)
      (h : p.RefersTo a.scope within a.spec.type b) : LeadsTo p within a b
  | trans {within within' : Bool} {a b c : Declared} (h : LeadsTo p within a b)
      (h' : LeadsTo p within' b c) : LeadsTo p (within || within') a c

/-- No alias without type parameters comes back to itself through a function, interface or struct
literal. -/
def NoLiteralCycle (p : Program) : Prop :=
  ∀ decl ∈ p.typeDecls, ¬p.LeadsTo true decl decl

variable {p : Program} {scope : Scope} {depth : Nat} {t : TypeExpr} {decl : Declared}
  {within : Bool}

/-! ## No endless sequence of steps -/

theorem RefersTo.mem (hscope : p.IsScope scope)
    (h : p.RefersTo scope within t decl) : decl ∈ p.typeDecls := by
  induction h with
  | here href hdecl => exact mem_of_resolveType? hscope hdecl
  | child _ _ ih => exact ih

/-- A type can be brought into normal form if the aliases it refers to can.  Those within a literal
may be met at any depth, the others at the depth of the type. -/
theorem acc_of_refersTo (h : ∀ within decl, p.RefersTo scope within t decl →
      isFollowed decl = true → ∀ d < hopLimit, (within = false → d = depth) →
        Acc p.Calls ⟨decl.scope, d + 1, decl.spec.type⟩) :
    Acc p.Calls ⟨scope, depth, t⟩ := by
  induction t using TypeExpr.childrenInduction generalizing depth with
  | step t ih =>
    refine .intro _ fun next hnext => ?_
    cases hnext with
    | child hu =>
      refine ih _ hu fun within decl hrefers halias d hd hdepth => ?_
      refine h _ decl (.child hu hrefers) halias d hd fun hfalse => ?_
      rw [Bool.or_eq_false_iff] at hfalse
      rw [hdepth hfalse.2, hfalse.1]
      rfl
    | followed href hdecl halias hdepth =>
      exact h false _ (.here href hdecl) halias depth hdepth fun _ => rfl

/-- Being reached through a literal orders the aliases of the program, if there are no cycles. -/
theorem wellFounded_leadsTo (hcycle : p.NoLiteralCycle) :
    WellFounded fun b a : { decl // decl ∈ p.typeDecls } => p.LeadsTo true a.1 b.1 := by
  have : Finite { decl // decl ∈ p.typeDecls } := (p.typeDecls.finite_toSet).to_subtype
  have : IsTrans { decl // decl ∈ p.typeDecls } fun b a => p.LeadsTo true a.1 b.1 :=
    ⟨fun _ _ _ hab hbc => hbc.trans hab⟩
  have : Std.Irrefl fun b a : { decl // decl ∈ p.typeDecls } => p.LeadsTo true a.1 b.1 :=
    ⟨fun a h => hcycle a.1 a.2 h⟩
  exact Finite.wellFounded_of_trans_of_irrefl _

/-- Following an alias ends. -/
theorem acc_followed (hcycle : p.NoLiteralCycle) (hdecl : decl ∈ p.typeDecls)
    (halias : isFollowed decl = true) (hdepth : depth < hopLimit) :
    Acc p.Calls ⟨decl.scope, depth + 1, decl.spec.type⟩ := by
  -- first over the aliases, each before those that lead to it through a literal
  suffices hall : ∀ a : { decl // decl ∈ p.typeDecls }, isFollowed a.1 = true →
      ∀ d < hopLimit, Acc p.Calls ⟨a.1.scope, d + 1, a.1.spec.type⟩ from
    hall ⟨decl, hdecl⟩ halias depth hdepth
  intro a
  induction a using (wellFounded_leadsTo hcycle).induction with
  | h a ih =>
    have hliteral : ∀ b ∈ p.typeDecls, isFollowed b = true → (a.1 = b ∨ p.LeadsTo false a.1 b) →
        ∀ c, p.RefersTo b.scope true b.spec.type c → isFollowed c = true →
          ∀ d < hopLimit, Acc p.Calls ⟨c.scope, d + 1, c.spec.type⟩ := by
      intro b hb hbalias hab c hbc hcalias
      have hc : c ∈ p.typeDecls := hbc.mem (isScope_of_mem hb).1
      refine ih ⟨c, hc⟩ ?_ hcalias
      rcases hab with rfl | hab
      · exact .step hbalias hcalias hbc
      · exact hab.trans (.step hbalias hcalias hbc)
    -- then over the hops that are left, for all aliases that are reached without a literal
    have hplain : ∀ left d, d + left = hopLimit → ∀ b ∈ p.typeDecls, isFollowed b = true →
        (a.1 = b ∨ p.LeadsTo false a.1 b) → Acc p.Calls ⟨b.scope, d + 1, b.spec.type⟩ := by
      intro left
      induction left with
      | zero =>
        intro d hd b hb hbalias hab
        refine acc_of_refersTo fun within c hbc hcalias d' hd' hwithin => ?_
        cases within with
        | true => exact hliteral b hb hbalias hab c hbc hcalias d' hd'
        | false =>
          have := hwithin rfl
          omega
      | succ left ihleft =>
        intro d hd b hb hbalias hab
        refine acc_of_refersTo fun within c hbc hcalias d' hd' hwithin => ?_
        cases within with
        | true => exact hliteral b hb hbalias hab c hbc hcalias d' hd'
        | false =>
          rw [hwithin rfl]
          refine ihleft (d + 1) (by omega) c (hbc.mem (isScope_of_mem hb).1) hcalias (.inr ?_)
          rcases hab with rfl | hab
          · exact .step hbalias hcalias hbc
          · exact hab.trans (.step hbalias hcalias hbc)
    intro halias d hd
    exact hplain (hopLimit - d) d (by omega) a.1 a.2 halias (.inl rfl)

/-- Bringing a type into normal form ends. -/
theorem acc_calls (hcycle : p.NoLiteralCycle) (hscope : p.IsScope scope) (depth : Nat)
    (t : TypeExpr) : Acc p.Calls ⟨scope, depth, t⟩ :=
  acc_of_refersTo fun _ _ hrefers halias _ hd _ =>
    acc_followed hcycle (hrefers.mem hscope) halias hd

/-! ## The normal form -/

/-- Normal forms of several types need no more levels of aliases than some number. -/
theorem exists_denotes {ts : List TypeExpr}
    (h : ∀ u ∈ ts, ∃ k n, p.Denotes (· < hopLimit) k scope depth u n) :
    ∃ k, ∃ f : TypeExpr → NormalType, ∀ u ∈ ts, p.Denotes (· < hopLimit) k scope depth u (f u) := by
  choose! level form hform using h
  refine ⟨(ts.map level).sum, form, fun u hu => ?_⟩
  exact (hform u hu).mono (le_sum_of_mem (mem_map_of_mem hu))

/-- A type that is brought into normal form by finitely many steps has one by the rules. -/
theorem exists_denotes_of_acc {call : Call} (h : Acc p.Calls call) :
    ∃ k n, p.Denotes (· < hopLimit) k call.scope call.depth call.type n := by
  induction h with
  | intro call _ ih =>
    obtain ⟨scope, depth, t⟩ := call
    obtain ⟨k, f, hf⟩ : ∃ k, ∃ f : TypeExpr → NormalType, ∀ u ∈ t.children,
        p.Denotes (· < hopLimit) k scope (if t.isLiteral then 0 else depth) u (f u) :=
      exists_denotes fun u hu => ih _ (.child hu)
    have hreference : ∀ decl, t.isReference = true → p.resolveType? scope t = some decl →
        ∃ k n, p.Denotes (· < hopLimit) k scope depth t n := by
      intro decl href hdecl
      by_cases hstop : isFollowed decl = true ∧ depth < hopLimit
      · obtain ⟨k, n, hn⟩ := ih _ (.followed href hdecl hstop.1 hstop.2)
        exact ⟨k + 1, n, .followed href hdecl hstop.1 hstop.2 hn⟩
      · exact ⟨0, _, .declared href hdecl hstop⟩
    cases t with
    | name name =>
      cases hname : p.resolveName scope name with
      | declared decl => exact hreference decl rfl (by rw [resolveType?, hname])
      | predeclared => exact ⟨0, _, .predeclared hname⟩
      | unknown => exact ⟨0, _, .unknown hname⟩
    | qualified package name =>
      cases hpath : p.qualifierPath? scope.file package with
      | none => exact ⟨0, _, .unbound hpath⟩
      | some path =>
        cases hname : p.resolveQualified? scope package name with
        | none => exact ⟨0, _, .undeclared hpath hname⟩
        | some decl => exact hreference decl rfl hname
    | generic base args =>
      exact ⟨k, _, .generic f (hf base mem_cons_self) fun a ha => hf a (mem_cons_of_mem _ ha)⟩
    | pointer elem => exact ⟨k, _, .pointer (hf elem (mem_singleton_self _))⟩
    | slice elem => exact ⟨k, _, .slice (hf elem (mem_singleton_self _))⟩
    | ellipsis elem => exact ⟨k, _, .ellipsis (hf elem (mem_singleton_self _))⟩
    | array len elem => exact ⟨k, _, .array (hf elem (mem_singleton_self _))⟩
    | map key value =>
      exact ⟨k, _, .map (hf key (by simp [TypeExpr.children])) (hf value (by simp [TypeExpr.children]))⟩
    | chan dir elem => exact ⟨k, _, .chan (hf elem (mem_singleton_self _))⟩
    | paren elem => exact ⟨k, _, .paren (hf elem (mem_singleton_self _))⟩
    | func sig =>
      have hmem : ∀ q ∈ sig.params ++ sig.results, q.type ∈ sig.types :=
        fun q hq => mem_map_of_mem hq
      exact ⟨k, _, .func f (fun q hq => hf _ (hmem q (mem_append_left _ hq)))
        fun q hq => hf _ (hmem q (mem_append_right _ hq))⟩
    | interface elems =>
      exact ⟨k, _, .interface f fun e he u hu => hf u (mem_flatMap_of_mem he hu)⟩
    | struct fields =>
      exact ⟨k, _, .struct f fun field hfield => hf _ (mem_map_of_mem hfield)⟩
    | union terms => exact ⟨k, _, .union f fun u hu => hf _ (mem_map_of_mem hu)⟩

/-- Where no alias comes back to itself through a literal, bringing a type of a file into normal form
ends, and its canonical text and the shape of a method are those of the finite normal forms that the
types have by the rules. -/
theorem canonical_ends (hcycle : p.NoLiteralCycle) (hscope : p.IsScope scope) :
    (∀ depth t, Acc p.Calls ⟨scope, depth, t⟩) ∧
    (∀ t, ∃ n, p.Means scope t n ∧ p.canonical scope t = n.text) ∧
    ∀ sig : Signature, ∃ f : TypeExpr → NormalType, (∀ t ∈ sig.types, p.Means scope t (f t)) ∧
      p.methodShape scope sig = (sig.normal f).shape := by
  have hmeans : ∀ t, ∃ n, p.Means scope t n := by
    intro t
    obtain ⟨k, n, hn⟩ := exists_denotes_of_acc (acc_calls hcycle hscope 0 t)
    exact ⟨n, k, hn⟩
  refine ⟨acc_calls hcycle hscope, fun t => ?_, fun sig => ?_⟩
  · obtain ⟨n, k, hn⟩ := hmeans t
    exact ⟨n, ⟨k, hn⟩, by rw [canonical, normalise_eq hscope hn]⟩
  · choose f hf using hmeans
    refine ⟨f, fun t _ => hf t, ?_⟩
    have hsame : ∀ t, p.normalise scope t = f t := by
      intro t
      obtain ⟨k, hk⟩ := hf t
      exact normalise_eq hscope hk
    rw [methodShape, normalSignature_eq]
    exact congrArg NormalSignature.shape
      (Signature.normal_congr (fun q _ => hsame q.type) fun q _ => hsame q.type)

/-! ### Aliases in a circle -/

/-- There is no such cycle where some number falls along every reference within a literal and does not
grow along the others. -/
theorem noLiteralCycle_of_rank (rank : Declared → Nat)
    (h : ∀ a ∈ p.typeDecls, ∀ within b, p.RefersTo a.scope within a.spec.type b →
      rank b + within.toNat ≤ rank a) : p.NoLiteralCycle := by
  have hleads : ∀ within a b, p.LeadsTo within a b → a ∈ p.typeDecls →
      b ∈ p.typeDecls ∧ rank b + within.toNat ≤ rank a := by
    intro within a b hab
    induction hab with
    | step _ _ hrefers => exact fun ha => ⟨hrefers.mem (isScope_of_mem ha).1, h _ ha _ _ hrefers⟩
    | @trans within within' _ _ _ _ _ ih ih' =>
      intro ha
      obtain ⟨hb, hle⟩ := ih ha
      obtain ⟨hc, hle'⟩ := ih' hb
      have hor : (within || within').toNat ≤ within.toNat + within'.toNat := by
        cases within <;> cases within' <;> decide
      exact ⟨hc, by omega⟩
  intro decl hdecl hcycle
  have := (hleads true decl decl hcycle hdecl).2
  simp at this

theorem refersTo_name {name : String} :
    p.RefersTo scope within (.name name) decl ↔
      within = false ∧ p.resolveType? scope (.name name) = some decl := by
  constructor
  · intro h
    cases h with
    | here _ hdecl => exact ⟨rfl, hdecl⟩
    | child hu => cases hu
  · rintro ⟨rfl, hdecl⟩
    exact .here rfl hdecl

theorem refersTo_iff_children (ht : t.isReference = false) :
    p.RefersTo scope within t decl ↔
      ∃ u ∈ t.children, ∃ v, p.RefersTo scope v u decl ∧ within = (t.isLiteral || v) := by
  constructor
  · intro h
    cases h with
    | here href _ => rw [ht] at href; cases href
    | child hu h => exact ⟨_, hu, _, h, rfl⟩
  · rintro ⟨u, hu, v, h, rfl⟩
    exact .child hu h

/-- A file with two aliases that stand for each other, and one for a function of them. -/
def circleText : String :=
  "package a;type(A=*B;B=map[string]A;C=func(A)struct\x7bx B\x7d)"

/-- What is declared in this file. -/
def circleFile : SourceFile where
  package := "a"
  packageSpan := ⟨0, 9⟩
  imports := []
  decls := [.types ⟨10, 56⟩
    [⟨"A", ⟨15, 19⟩, [], true, .pointer (.name "B")⟩,
      ⟨"B", ⟨20, 34⟩, [], true, .map (.name "string") (.name "A")⟩,
      ⟨"C", ⟨35, 55⟩, [], true, .func ⟨[.unnamed (.name "A")],
        [.unnamed (.struct [⟨["x"], .name "B", none⟩])]⟩⟩]]

/-- The program of this file. -/
def circleProgram : Program :=
  single "m/a" "a.go" circleText circleFile

/-- Where the names of this file are looked up. -/
def circleScope : Scope :=
  ⟨⟨"m/a", "a", [⟨"m/a/a.go", circleText, circleFile⟩]⟩, ⟨"m/a/a.go", circleText, circleFile⟩⟩

theorem circleProgram_noLiteralCycle : circleProgram.NoLiteralCycle := by
  let rank (decl : Declared) : Nat := if decl.name = "C" then 1 else 0
  have hresolve : ∀ name ∈ ["A", "B", "string"],
      (circleProgram.resolveType? circleScope (.name name)).all (rank · == 0) = true := by
    decide +kernel
  have hname : ∀ name ∈ ["A", "B", "string"], ∀ within b,
      circleProgram.RefersTo circleScope within (.name name) b → within = false ∧ rank b = 0 := by
    intro name hmem within b h
    obtain ⟨rfl, hdecl⟩ := refersTo_name.1 h
    have hall := hresolve name hmem
    rw [hdecl] at hall
    exact ⟨rfl, by simpa using hall⟩
  refine noLiteralCycle_of_rank rank ?_
  have hdecls : circleProgram.typeDecls = circleFile.typeSpecs.map
      fun spec => ⟨circleScope.package, circleScope.file, spec⟩ := by decide +kernel
  intro a ha within b h
  rw [hdecls] at ha
  obtain ⟨spec, hspec, rfl⟩ := mem_map.1 ha
  simp only [SourceFile.typeSpecs, circleFile, flatMap_cons, flatMap_nil, append_nil,
    mem_cons, not_mem_nil, or_false] at hspec
  rcases hspec with rfl | rfl | rfl <;>
    obtain ⟨u, hu, v, hv, hwithin⟩ := (refersTo_iff_children rfl).1 h
  · cases mem_singleton.1 hu
    obtain ⟨rfl, hrank⟩ := hname "B" (by simp) _ _ hv
    rw [hwithin, hrank]
    decide
  · have hleaf : v = false ∧ rank b = 0 := by
      rcases mem_cons.1 hu with rfl | hu
      · exact hname "string" (by simp) _ _ hv
      · cases mem_singleton.1 hu
        exact hname "A" (by simp) _ _ hv
    rw [hwithin, hleaf.1, hleaf.2]
    decide
  · have hrank : rank b = 0 := by
      rcases mem_cons.1 hu with rfl | hu
      · exact (hname "A" (by simp) _ _ hv).2
      · cases mem_singleton.1 hu
        obtain ⟨u, hu, w, hw, -⟩ := (refersTo_iff_children rfl).1 hv
        cases mem_singleton.1 hu
        exact (hname "B" (by simp) _ _ hw).2
    rw [hrank, Nat.zero_add]
    exact Bool.toNat_le _

/-- In a program where two aliases stand for each other, through a pointer and a map, and another one
for a function of them, all types have their normal forms. -/
theorem canonical_ends_circle :
    ∃ p scope, load ((Shelf.empty none).addFile "m/a" "a.go" circleText).toSource ["m/a"] = .ok p ∧
      p.NoLiteralCycle ∧ p.IsScope scope ∧ Acc p.Calls ⟨scope, 0, .name "C"⟩ ∧
      ∃ n, p.Means scope (.name "C") n ∧ p.canonical scope (.name "C") = n.text := by
  have hparse : SourceFile.parse circleText = .ok circleFile := by decide +kernel
  have hscope : circleProgram.IsScope circleScope :=
    ⟨mem_singleton_self _, mem_singleton_self _⟩
  obtain ⟨hacc, hmeans, -⟩ := canonical_ends circleProgram_noLiteralCycle hscope
  exact ⟨circleProgram, circleScope, load_single "m/a" "a.go" hparse rfl (by decide),
    circleProgram_noLiteralCycle, hscope, hacc 0 _, hmeans _⟩

end Program

end Stubwright
