import Stubwright.Proofs.Parsing.Members
import Stubwright.Proofs.References

/-!
# Printed types are read back

A type is printed as a text and read as a tree, and the two agree up to parentheses.

* `TypeExpr.parse_print`: types and signatures that were read are read back from their prints.
-/

namespace Stubwright

open List

variable {t : TypeExpr} {leaf : TypeExpr → Prop}

open TypeExpr hiding name

/-! ## Replacing references -/

/-- Members can be written down if their skeletons can and their references may stand there. -/
theorem forall_formed_iff {α : Type} {formed shaped : α → Prop}
    {skeleton : α → α} {references : α → List TypeExpr} {xs : List α}
    (h : ∀ x ∈ xs, formed x ↔ shaped (skeleton x) ∧ ∀ l ∈ references x, leaf l) :
    (∀ x ∈ xs, formed x) ↔
      (∀ y ∈ xs.map skeleton, shaped y) ∧ ∀ l ∈ xs.flatMap references, leaf l := by
  rw [forall_mem_map]
  constructor
  · intro hformed
    refine ⟨fun x hx => ((h x hx).1 (hformed x hx)).1, fun l hl => ?_⟩
    obtain ⟨x, hx, hl⟩ := mem_flatMap.1 hl
    exact ((h x hx).1 (hformed x hx)).2 l hl
  · rintro ⟨hshaped, hleaf⟩ x hx
    exact (h x hx).2 ⟨hshaped x hx, fun l hl => hleaf l (mem_flatMap_of_mem hx hl)⟩

/-- Any reference at all. -/
abbrev anyReference : TypeExpr → Prop := fun _ => True

/-- Whether a type can be written down depends on its skeleton and, apart from that, on each of its
references alone. -/
def TypeExpr.FormedBySkeleton (leaf : TypeExpr → Prop) (t : TypeExpr) : Prop :=
  ∀ place, t.Formed leaf place ↔
    t.skeleton.Formed anyReference place ∧ ∀ l ∈ t.references, leaf l

section Skeletons

variable {leaf : TypeExpr → Prop}

theorem TypeExpr.isReference_skeleton (t : TypeExpr) : t.skeleton.isReference = t.isReference := by
  cases t <;> simp [isReference]

theorem TypeExpr.isEmbeddable_skeleton (t : TypeExpr) :
    t.skeleton.isEmbeddable = t.isEmbeddable := by
  cases t <;> simp [isEmbeddable]

theorem Param.formed_iff {p : Param} (h : p.type.FormedBySkeleton leaf) :
    p.Formed leaf ↔ p.skeleton.Formed anyReference ∧ ∀ l ∈ p.type.references, leaf l := by
  obtain ⟨names, type⟩ := p
  rw [Param.skeleton, Param.Formed, Param.Formed, and_assoc, h .param]

theorem Param.uniform_skeleton (ps : List Param) :
    Param.Uniform (ps.map Param.skeleton) ↔ Param.Uniform ps := by
  rw [Param.Uniform, Param.Uniform, forall_mem_map, forall_mem_map]
  rfl

theorem Param.forall_formed_iff {ps : List Param} (h : ∀ p ∈ ps, p.type.FormedBySkeleton leaf) :
    (∀ p ∈ ps, p.Formed leaf) ↔ (∀ p ∈ ps.map Param.skeleton, p.Formed anyReference) ∧
      ∀ l ∈ ps.flatMap (·.type.references), leaf l :=
  Stubwright.forall_formed_iff fun p hp => Param.formed_iff (h p hp)

theorem Signature.formed_iff {sig : Signature} (h : sig.Each (FormedBySkeleton leaf)) :
    sig.Formed leaf ↔ sig.skeleton.Formed anyReference ∧ ∀ l ∈ sig.references, leaf l := by
  obtain ⟨ps, rs⟩ := sig
  rw [Signature.skeleton_mk, Signature.references_mk, Signature.Formed, Signature.Formed,
    Param.uniform_skeleton, Param.uniform_skeleton, forall_mem_append,
    Param.forall_formed_iff h.1, Param.forall_formed_iff h.2]
  constructor
  · rintro ⟨⟨hps, hpsLeaf⟩, ⟨hrs, hrsLeaf⟩, huniform⟩
    exact ⟨⟨hps, hrs, huniform⟩, hpsLeaf, hrsLeaf⟩
  · rintro ⟨⟨hps, hrs, huniform⟩, hpsLeaf, hrsLeaf⟩
    exact ⟨⟨hps, hpsLeaf⟩, ⟨hrs, hrsLeaf⟩, huniform⟩

theorem Element.formed_iff {e : Element} (h : e.Each (FormedBySkeleton leaf)) :
    e.Formed leaf ↔ e.skeleton.Formed anyReference ∧ ∀ l ∈ e.references, leaf l := by
  cases e with
  | method name sig =>
    rw [Element.skeleton, Element.references, Element.Formed, Element.Formed,
      Signature.formed_iff h, and_assoc]
  | embed type =>
    rw [Element.skeleton, Element.references, Element.Formed, Element.Formed]
    exact h .embed

theorem Field.formed_iff {f : Field} (h : f.type.FormedBySkeleton leaf) :
    f.Formed leaf ↔ f.skeleton.Formed anyReference ∧ ∀ l ∈ f.type.references, leaf l := by
  obtain ⟨names, type, tag⟩ := f
  rw [Field.skeleton, Field.Formed, Field.Formed, isEmbeddable_skeleton, h .plain]
  constructor
  · rintro ⟨hnames, hembed, ⟨hshape, hleaf⟩, htag⟩
    exact ⟨⟨hnames, hembed, hshape, htag⟩, hleaf⟩
  · rintro ⟨⟨hnames, hembed, hshape, htag⟩, hleaf⟩
    exact ⟨hnames, hembed, ⟨hshape, hleaf⟩, htag⟩

theorem Term.formed_iff {t : Term} (h : t.type.FormedBySkeleton leaf) :
    t.Formed leaf ↔ t.skeleton.Formed anyReference ∧ ∀ l ∈ t.type.references, leaf l := by
  obtain ⟨tilde, type⟩ := t
  rw [Term.skeleton, Term.Formed, Term.Formed]
  exact h .plain

theorem Term.single_skeleton (terms : List Term) :
    (∀ t, terms.map Term.skeleton ≠ [⟨false, t⟩]) ↔ ∀ t, terms ≠ [⟨false, t⟩] := by
  constructor
  · rintro h t rfl
    exact h t.skeleton rfl
  · intro h t heq
    obtain ⟨⟨tilde, u⟩, rest, rfl, hterm, hrest⟩ := map_eq_cons_iff.1 heq
    obtain rfl := map_eq_nil_iff.1 hrest
    cases hterm
    exact h u rfl

/-- Whether a type can be written down is settled by its skeleton and its references. -/
theorem TypeExpr.formedBySkeleton (t : TypeExpr) : t.FormedBySkeleton leaf := by
  induction t using partsInduction with
  | name n =>
    intro place
    rw [skeleton_name, references_name, forall_mem_singleton, Formed, Formed,
      true_and]
  | qualified p n =>
    intro place
    rw [skeleton_qualified, references_qualified, forall_mem_singleton, Formed,
      Formed, true_and]
  | generic base args hbase hargs =>
    intro place
    have hall := forall_formed_iff fun a ha => hargs a ha .plain
    rw [skeleton_generic, references_generic, forall_mem_append, Formed,
      Formed, isReference_skeleton, hbase .plain, hall, ne_eq, ne_eq,
      map_eq_nil_iff]
    constructor
    · rintro ⟨href, ⟨hshape, hleaf⟩, hne, hshapes, hleaves⟩
      exact ⟨⟨href, hshape, hne, hshapes⟩, hleaf, hleaves⟩
    · rintro ⟨⟨href, hshape, hne, hshapes⟩, hleaf, hleaves⟩
      exact ⟨href, ⟨hshape, hleaf⟩, hne, hshapes, hleaves⟩
  | pointer elem ih =>
    intro place
    rw [skeleton_pointer, references_pointer, Formed, Formed]
    exact ih .plain
  | slice elem ih =>
    intro place
    rw [skeleton_slice, references_slice, Formed, Formed]
    exact ih .plain
  | array len elem ih =>
    intro place
    rw [skeleton_array, references_array, Formed, Formed, ih .plain, and_assoc]
  | map key value hkey hvalue =>
    intro place
    rw [skeleton_map, references_map, forall_mem_append, Formed, Formed,
      hkey .plain, hvalue .plain, and_and_and_comm]
  | chan dir elem ih =>
    intro place
    rw [skeleton_chan, references_chan, Formed, Formed]
    exact ih .plain
  | func sig ih =>
    intro place
    rw [skeleton_func, references_func, Formed, Formed]
    exact Signature.formed_iff ih
  | interface elems ih =>
    intro place
    rw [skeleton_interface, references_interface, Formed, Formed]
    exact forall_formed_iff fun e he => Element.formed_iff (ih e he)
  | struct fields ih =>
    intro place
    rw [skeleton_struct, references_struct, Formed, Formed]
    exact forall_formed_iff fun f hf => Field.formed_iff (ih f hf)
  | paren elem ih =>
    intro place
    rw [skeleton_paren, references_paren, Formed, Formed]
    exact ih .plain
  | ellipsis elem ih =>
    intro place
    rw [skeleton_ellipsis, references_ellipsis, Formed, Formed, ih .plain,
      and_assoc]
  | union terms ih =>
    intro place
    have hall : (∀ t ∈ terms, t.Formed leaf) ↔
        (∀ t ∈ terms.map Term.skeleton, t.Formed anyReference) ∧
          ∀ l ∈ terms.flatMap (·.type.references), leaf l :=
      forall_formed_iff fun t ht => Term.formed_iff (ih t ht)
    rw [skeleton_union, references_union, Formed, Formed, hall,
      Term.single_skeleton, ne_eq, ne_eq, map_eq_nil_iff, and_assoc, and_assoc, and_assoc]

end Skeletons

/-- Replacing references in a type by others that may stand there keeps it one that can be written
down. -/
theorem TypeExpr.Formed.replace {u : TypeExpr} {place : Place}
    (h : t.Formed leaf place) (hskeleton : u.skeleton = t.skeleton)
    (hleaf : ∀ l ∈ u.references, l ∈ t.references ∨ leaf l) : u.Formed leaf place := by
  rw [t.formedBySkeleton place] at h
  rw [u.formedBySkeleton place, hskeleton]
  exact ⟨h.1, fun l hl => (hleaf l hl).elim (h.2 l) id⟩

/-! ## Texts of types -/

namespace Parser

/-- A type and nothing behind it but the end of its statement. -/
def wholeType : Parser TypeExpr := do
  let t ← type
  let _ ← eat .semi
  if !(← atEnd) then failHere .afterType
  return t

theorem parse_eq (text : String) : parse text = wholeType.run text.toList :=
  rfl

variable {α : Type} {p : Parser α} {text : List Char} {a : α} {ts : List Token}

theorem run_eq (htokens : tokenize text = .ok ts) :
    p.run text = ((p ⟨ts, 0⟩).map Prod.fst).mapError fun fault => fault.locate text := by
  unfold Parser.run
  simp only [htokens, bind, Except.bind]
  rcases p ⟨ts, 0⟩ with fault | r <;> rfl

theorem run_ok (h : p.run text = .ok a) :
    ∃ ts s', tokenize text = .ok ts ∧ p ⟨ts, 0⟩ = .ok (a, s') := by
  cases htokens : tokenize text with
  | error e => rw [Parser.run, htokens] at h; cases h
  | ok ts =>
    rw [run_eq htokens] at h
    cases hp : p ⟨ts, 0⟩ with
    | error e => rw [hp] at h; cases h
    | ok r =>
      rw [hp] at h
      cases h
      exact ⟨ts, r.2, rfl, hp⟩

theorem run_of_ok {s : Cursor} (htokens : tokenize text = .ok ts)
    (h : p ⟨ts, 0⟩ = .ok (a, s)) : p.run text = .ok a := by
  rw [run_eq htokens, h]
  rfl

theorem run_of_parses {rest : List Token} (htokens : tokenize text = .ok ts)
    (h : Parses p ts rest a) : p.run text = .ok a :=
  run_of_ok htokens (h 0).choose_spec

end Parser

/-- A type that is read from a text can be written down. -/
theorem TypeExpr.written_of_parse {text : String}
    (h : parse text = .ok t) : t.Written .plain := by
  rw [Parser.parse_eq] at h
  obtain ⟨ts, s', htokens, hp⟩ := Parser.run_ok h
  obtain ⟨u, s₁, htype, h₁⟩ := Parser.bind_ok hp
  have hlexed : Watch.form.Holds [.rBrack] ⟨ts, 0⟩ := ⟨0, [], false, text.toList, htokens⟩
  have hwritten := (Parser.sound_type _ _ _ _ _ hlexed htype).1 rfl
  obtain ⟨_, s₂, -, h₂⟩ := Parser.bind_ok h₁
  obtain ⟨done, s₃, -, h₃⟩ := Parser.bind_ok h₂
  dsimp only at h₃
  split at h₃
  · obtain ⟨_, _, hfail, -⟩ := Parser.bind_ok h₃
    exact absurd hfail Parser.failHere_ok
  · obtain ⟨rfl, -⟩ := Parser.pure_ok h₃
    exact hwritten

theorem TypeExpr.tokenize_print (h : t.Written .plain) (n : Nat) :
    ∃ ts semi, t.Spelled ts ∧ semi.kind = .semi ∧
      tokenize (t.print n).toList = .ok (ts ++ [semi]) := by
  obtain ⟨ts, pos, lead, hts, heq⟩ := t.emitsSpelled .plain h n false [] rfl 0 []
  refine ⟨ts, Token.inserted lead pos, hts, rfl, ?_⟩
  rw [append_nil, Lexeme.tokensFrom] at heq
  exact heq

theorem Parses.wholeType {ts : List Token} {semi : Token}
    (hsemi : semi.kind = .semi)
    (h : Parses (Parser.typeWithin (ts.length + 2)) (ts ++ [semi]) [semi] t) :
    Parses Parser.wholeType (ts ++ [semi]) [] t := by
  have htype : Parses Parser.type (ts ++ [semi]) [semi] t := by
    intro behind
    obtain ⟨behind', hok⟩ := h behind
    refine ⟨behind', ?_⟩
    rw [← hok]
    change Parser.typeWithin ((ts ++ [semi]).length + 1) _ = _
    rw [length_append]
    rfl
  exact htype.bind ((Parses.eat_true hsemi).bind fun behind => ⟨_, rfl⟩)

/-! ## Printing and reading -/

theorem TypeExpr.exists_parse_print (h : t.Written .plain)
    (hregular : t.isRegular = true) (n : Nat) :
    ∃ t', parse (t.print n) = .ok t' ∧ t'.bare = t.bare := by
  obtain ⟨ts, semi, hts, hsemi, htokens⟩ := tokenize_print h n
  have hends : EndsType [semi] := .cons (by rw [hsemi]; rfl)
  obtain ⟨t', hparses, hbare⟩ := t.readsBackWithin.1 .plain h hregular ts hts (ts.length + 2)
    [semi] (by omega) hends nofun
  refine ⟨t', ?_, hbare⟩
  rw [Parser.parse_eq]
  exact Parser.run_of_parses htokens (Parses.wholeType hsemi hparses)

/-- The signature of a function type is read back from its print behind the keyword. -/
theorem Signature.exists_parse_print {sig : Signature} (h : sig.Formed identified)
    (hregular : sig.isRegular = true) (n : Nat) :
    ∃ sig', TypeExpr.parse ("func" ++ sig.print n) = .ok (.func sig') ∧ sig'.bare = sig.bare := by
  have hplain : (TypeExpr.func sig).Written .plain := by
    rw [TypeExpr.Written, TypeExpr.Formed]
    exact h
  obtain ⟨ts, semi, hts, hsemi, htokens⟩ := TypeExpr.tokenize_print hplain n
  have hends : EndsType [semi] := .cons (by rw [hsemi]; rfl)
  obtain ⟨sig', hparses, hbare⟩ := Signature.parses_func
    ⟨fun p _ => p.type.readsBackWithin, fun p _ => p.type.readsBackWithin⟩ h hregular hts
    (Nat.le_add_right ts.length 2) hends
  refine ⟨sig', ?_, hbare⟩
  rw [TypeExpr.print] at htokens
  rw [Parser.parse_eq]
  exact Parser.run_of_parses htokens (Parses.wholeType hsemi hparses)

/-- **Printing and reading agree.**  Take a type that was read from a text, or one with other
references in it, all made of identifiers.  If no result in it is variadic and the brackets nest in
every length behind a name, then it is read back from its print at any indentation, up to
parentheses, and a signature is read back as one behind the keyword. -/
theorem TypeExpr.parse_print {text : String} {read t : TypeExpr}
    (hread : parse text = .ok read) (hskeleton : t.skeleton = read.skeleton)
    (hreferences : ∀ l ∈ t.references, l ∈ read.references ∨ l.hasIdentifiers = true)
    (hregular : t.isRegular = true) (n : Nat) :
    (∃ t', parse (t.print n) = .ok t' ∧ t'.bare = t.bare) ∧
      ∀ sig, t = .func sig →
        ∃ sig', parse ("func" ++ sig.print n) = .ok (.func sig') ∧
          sig'.bare = sig.bare := by
  have hwritten : t.Written .plain := (written_of_parse hread).replace hskeleton hreferences
  refine ⟨exists_parse_print hwritten hregular n, ?_⟩
  rintro sig rfl
  rw [Written, Formed] at hwritten
  rw [isRegular] at hregular
  exact Signature.exists_parse_print hwritten hregular n

/-- A signature with nested brackets in a length behind a name. -/
def nestedLengths (element : TypeExpr) : Signature :=
  ⟨[⟨["a", "b"], .array "f(x[0])" element⟩,
      ⟨["c"], .ellipsis (.chan .both (.paren (.chan .recv (.qualified "p" "E"))))⟩],
    [⟨[], .struct [⟨["d"], .array "N" (.name "T"), some "\"json\""⟩]⟩]⟩

/-- Nested brackets in a length behind a name do no harm, and another element can take the place of
the one that was read. -/
theorem TypeExpr.parse_print_nestedLengths :
    ∃ sig', parse ("func" ++ (nestedLengths (.qualified "q" "T")).print 1)
      = .ok (.func sig') ∧ sig'.bare = (nestedLengths (.qualified "q" "T")).bare := by
  have hread : parse
      "func(a, b [f(x[0])]T, c ...chan (<-chan p.E)) struct\x7bd [N]T \"json\"\x7d"
        = .ok (.func (nestedLengths (.name "T"))) := by decide +kernel
  have hskeleton : (func (nestedLengths (.qualified "q" "T"))).skeleton
      = (func (nestedLengths (.name "T"))).skeleton := by decide +kernel
  have hreferences : ∀ l ∈ (func (nestedLengths (.qualified "q" "T"))).references,
      l ∈ (func (nestedLengths (.name "T"))).references ∨ l.hasIdentifiers = true := by
    decide +kernel
  have hregular : (func (nestedLengths (.qualified "q" "T"))).isRegular = true := by
    decide +kernel
  exact (parse_print hread hskeleton hreferences hregular 1).2 _ rfl

/-- A struct with a field that is an array, in whose length a bracket is closed by a parenthesis. -/
def crossedLength : TypeExpr :=
  .struct [⟨["b"], .array "struct\x7bc [)" (.name "K"), none⟩]

/-- Where brackets in a length behind a name cross, a type that is read from a text need not be read
back: behind its print, the name and the brackets pass for an instantiated type. -/
theorem TypeExpr.not_parse_print_crossedLength :
    ∃ t, parse "func() (G[struct\x7bb [struct\x7bc [)]K\x7d])" = .ok t ∧
      (∀ u ∈ (t.walk enterAll).nodes, u.isEllipsis = false) ∧
      ∀ t', parse t.toText ≠ .ok t' := by
  refine ⟨.func ⟨[], [⟨[], .generic (.name "G") [crossedLength]⟩]⟩, ?_, ?_, ?_⟩
  · decide +kernel
  · decide +kernel
  · intro t' hparse
    have hnone : (parse (func
        ⟨[], [⟨[], .generic (.name "G") [crossedLength]⟩]⟩).toText).toOption = none := by
      decide +kernel
    rw [hparse] at hnone
    cases hnone

end Stubwright
