import Stubwright.NormalType
import Stubwright.Proofs.Lexing
import Mathlib

/-!
# Normal forms up to the order of elements

When two types in normal form are the same, and which normal forms come from types that were read.

* `NormalType.sameText`: equal up to order means equal in text.
-/

namespace Stubwright

open List

open NormalType

/-! ## Induction over the parts of a normal form -/

def NormalSignature.Each (P : NormalType → Prop) (s : NormalSignature) : Prop :=
  (∀ t ∈ s.params, P t) ∧ ∀ t ∈ s.results, P t

/-- The terms of an embedded element; a type that is no union is its only term. -/
def NormalType.terms : NormalType → List NormalTerm
  | .union terms => terms
  | type => [⟨false, type⟩]

/-- A property of every type in an element of an interface in normal form; of a union, of its
terms. -/
def NormalElement.Each (P : NormalType → Prop) : NormalElement → Prop
  | .method _ sig => sig.Each P
  | .embed type => ∀ t ∈ type.terms, P t.type

theorem NormalType.terms_cases (n : NormalType) :
    (∃ terms, n = .union terms ∧ n.terms = terms) ∨ n.terms = [⟨false, n⟩] := by
  cases n with
  | union terms => exact .inl ⟨terms, rfl, rfl⟩
  | _ => exact .inr rfl

/-- What holds of a normal form whenever it holds of its parts holds of every normal form. -/
@[elab_as_elim]
theorem NormalType.partsInduction {P : NormalType → Prop}
    (named : ∀ package name, P (.named package name))
    (generic : ∀ base args, P base → (∀ a ∈ args, P a) → P (.generic base args))
    (pointer : ∀ elem, P elem → P (.pointer elem)) (slice : ∀ elem, P elem → P (.slice elem))
    (array : ∀ len elem, P elem → P (.array len elem))
    (map : ∀ key value, P key → P value → P (.map key value))
    (chan : ∀ dir elem, P elem → P (.chan dir elem)) (func : ∀ sig, sig.Each P → P (.func sig))
    (interface : ∀ elems, (∀ e ∈ elems, e.Each P) → P (.interface elems))
    (struct : ∀ fields, (∀ f ∈ fields, P f.type) → P (.struct fields))
    (union : ∀ terms, (∀ t ∈ terms, P t.type) → P (.union terms)) (n : NormalType) : P n := by
  induction hn : sizeOf n using Nat.strongRecOn generalizing n with
  | _ size ih =>
  subst hn
  -- every part is smaller than the whole
  have hsig : ∀ sig : NormalSignature, sizeOf sig < sizeOf n → sig.Each P := by
    rintro ⟨params, results, variadic⟩ hlt
    simp only [NormalSignature.mk.sizeOf_spec] at hlt
    refine ⟨fun t (ht : t ∈ params) => ih _ ?_ _ rfl, fun t (ht : t ∈ results) => ih _ ?_ _ rfl⟩
    · have := sizeOf_lt_of_mem ht; omega
    · have := sizeOf_lt_of_mem ht; omega
  have hterms : ∀ terms : List NormalTerm, sizeOf terms < sizeOf n → ∀ t ∈ terms, P t.type := by
    intro terms hlt t ht
    have := sizeOf_lt_of_mem ht
    obtain ⟨tilde, type⟩ := t
    simp only [NormalTerm.mk.sizeOf_spec] at this
    exact ih _ (by dsimp only; omega) _ rfl
  cases n with
  | named package name => exact named package name
  | generic base args =>
    refine generic base args (ih _ (by simp; omega) _ rfl) fun a ha => ih _ ?_ _ rfl
    have := sizeOf_lt_of_mem ha
    simp only [NormalType.generic.sizeOf_spec]
    omega
  | pointer elem => exact pointer elem (ih _ (by simp) _ rfl)
  | slice elem => exact slice elem (ih _ (by simp) _ rfl)
  | array len elem =>
    exact array len elem (ih _ (by simp only [NormalType.array.sizeOf_spec]; omega) _ rfl)
  | map key value =>
    refine map key value (ih _ ?_ _ rfl) (ih _ ?_ _ rfl)
    · simp only [NormalType.map.sizeOf_spec]; omega
    · simp only [NormalType.map.sizeOf_spec]; omega
  | chan dir elem =>
    exact chan dir elem (ih _ (by simp only [NormalType.chan.sizeOf_spec]; omega) _ rfl)
  | func sig => exact func sig (hsig sig (by simp))
  | interface elems =>
    refine interface elems fun e he => ?_
    have hlt := sizeOf_lt_of_mem he
    simp only [NormalType.interface.sizeOf_spec] at hsig hterms ih
    cases e with
    | method name sig =>
      simp only [NormalElement.method.sizeOf_spec] at hlt
      exact hsig sig (by omega)
    | embed type =>
      simp only [NormalElement.embed.sizeOf_spec] at hlt
      rcases type.terms_cases with ⟨terms, rfl, heq⟩ | heq
      · simp only [NormalType.union.sizeOf_spec] at hlt
        rw [NormalElement.Each, heq]
        exact hterms terms (by omega)
      · rw [NormalElement.Each, heq, forall_mem_singleton]
        exact ih _ (by dsimp only; omega) _ rfl
  | struct fields =>
    refine struct fields fun f hf => ih _ ?_ _ rfl
    have := sizeOf_lt_of_mem hf
    obtain ⟨name, type, tag⟩ := f
    simp only [NormalField.mk.sizeOf_spec, NormalType.struct.sizeOf_spec] at this ⊢
    omega
  | union terms => exact union terms (hterms terms (by simp))

/-! ## Normal forms up to the order of elements -/

mutual

/-- Whether two types in normal form are the same, where the elements of interfaces may stand in
any order. -/
def NormalType.Same : NormalType → NormalType → Prop
  | .named package name, .named package' name' => package = package' ∧ name = name'
  | .generic base args, .generic base' args' => base.Same base' ∧ SameNormals args args'
  | .pointer elem, .pointer elem' => elem.Same elem'
  | .slice elem, .slice elem' => elem.Same elem'
  | .array len elem, .array len' elem' => len = len' ∧ elem.Same elem'
  | .map key value, .map key' value' => key.Same key' ∧ value.Same value'
  | .chan dir elem, .chan dir' elem' => dir = dir' ∧ elem.Same elem'
  | .func sig, .func sig' => sig.Same sig'
  | .interface elems, .interface elems' => ∃ elems'', elems'.Perm elems'' ∧
      SameNormalElements elems elems''
  | .struct fields, .struct fields' => SameNormalFields fields fields'
  | .union terms, .union terms' => SameNormalTerms terms terms'
  | _, _ => False

/-- Whether two lists of types in normal form are the same. -/
def SameNormals : List NormalType → List NormalType → Prop
  | [], [] => True
  | t :: ts, t' :: ts' => t.Same t' ∧ SameNormals ts ts'
  | _, _ => False

/-- Whether two signatures in normal form are the same. -/
def NormalSignature.Same : NormalSignature → NormalSignature → Prop
  | ⟨params, results, variadic⟩, ⟨params', results', variadic'⟩ =>
    SameNormals params params' ∧ SameNormals results results' ∧ variadic = variadic'

/-- Whether two elements of interfaces in normal form are the same. -/
def NormalElement.Same : NormalElement → NormalElement → Prop
  | .method name sig, .method name' sig' => name = name' ∧ sig.Same sig'
  | .embed type, .embed type' => type.Same type'
  | _, _ => False

/-- Whether two lists of elements in normal form are the same. -/
def SameNormalElements : List NormalElement → List NormalElement → Prop
  | [], [] => True
  | e :: es, e' :: es' => e.Same e' ∧ SameNormalElements es es'
  | _, _ => False

/-- Whether two fields in normal form are the same. -/
def NormalField.Same : NormalField → NormalField → Prop
  | ⟨name, type, tag⟩, ⟨name', type', tag'⟩ => name = name' ∧ type.Same type' ∧ tag = tag'

/-- Whether two lists of fields in normal form are the same. -/
def SameNormalFields : List NormalField → List NormalField → Prop
  | [], [] => True
  | f :: fs, f' :: fs' => f.Same f' ∧ SameNormalFields fs fs'
  | _, _ => False

/-- Whether two terms in normal form are the same. -/
def NormalTerm.Same : NormalTerm → NormalTerm → Prop
  | ⟨tilde, type⟩, ⟨tilde', type'⟩ => tilde = tilde' ∧ type.Same type'

/-- Whether two lists of terms in normal form are the same. -/
def SameNormalTerms : List NormalTerm → List NormalTerm → Prop
  | [], [] => True
  | t :: ts, t' :: ts' => t.Same t' ∧ SameNormalTerms ts ts'
  | _, _ => False

end

/-! ### Lists -/

theorem sameNormals_iff {ts ts' : List NormalType} :
    SameNormals ts ts' ↔ List.Forall₂ Same ts ts' := by
  induction ts generalizing ts' with
  | nil => cases ts' <;> simp [SameNormals]
  | cons t ts ih => cases ts' <;> simp [SameNormals, ih]

theorem sameNormalElements_iff {es es' : List NormalElement} :
    SameNormalElements es es' ↔ List.Forall₂ NormalElement.Same es es' := by
  induction es generalizing es' with
  | nil => cases es' <;> simp [SameNormalElements]
  | cons e es ih => cases es' <;> simp [SameNormalElements, ih]

theorem sameNormalFields_iff {fs fs' : List NormalField} :
    SameNormalFields fs fs' ↔ List.Forall₂ NormalField.Same fs fs' := by
  induction fs generalizing fs' with
  | nil => cases fs' <;> simp [SameNormalFields]
  | cons f fs ih => cases fs' <;> simp [SameNormalFields, ih]

theorem sameNormalTerms_iff {ts ts' : List NormalTerm} :
    SameNormalTerms ts ts' ↔ List.Forall₂ NormalTerm.Same ts ts' := by
  induction ts generalizing ts' with
  | nil => cases ts' <;> simp [SameNormalTerms]
  | cons t ts ih => cases ts' <;> simp [SameNormalTerms, ih]

theorem normalTexts_eq (ts : List NormalType) : normalTexts ts = ts.map text := by
  induction ts with
  | nil => rfl
  | cons t ts ih => rw [normalTexts, ih, map_cons]

theorem elementTexts_eq (es : List NormalElement) : elementTexts es = es.map NormalElement.text := by
  induction es with
  | nil => rfl
  | cons e es ih => rw [elementTexts, ih, map_cons]

theorem fieldTexts_eq (fs : List NormalField) : fieldTexts fs = fs.map NormalField.text := by
  induction fs with
  | nil => rfl
  | cons f fs ih => rw [fieldTexts, ih, map_cons]

theorem termTexts_eq (ts : List NormalTerm) : termTexts ts = ts.map NormalTerm.text := by
  induction ts with
  | nil => rfl
  | cons t ts ih => rw [termTexts, ih, map_cons]

/-! ## Same normal forms have the same text -/

/-- Related lists have equal images when related members have. -/
theorem map_eq_map_of_forall₂ {α β : Type} {R : α → α → Prop} {f : α → β} {xs ys : List α}
    (h : List.Forall₂ R xs ys) (hf : ∀ x ∈ xs, ∀ y, R x y → f x = f y) : xs.map f = ys.map f := by
  induction h with
  | nil => rfl
  | cons hxy _ ih =>
    rw [map_cons, map_cons, hf _ mem_cons_self _ hxy,
      ih fun x hx => hf x (mem_cons_of_mem _ hx)]

/-- Sorting forgets the order. -/
theorem mergeSort_eq_of_perm {as bs : List String} (h : as.Perm bs) :
    as.mergeSort (· ≤ ·) = bs.mergeSort (· ≤ ·) := by
  have htrans : ∀ a b c : String, decide (a ≤ b) = true → decide (b ≤ c) = true →
      decide (a ≤ c) = true := by
    intro a b c hab hbc
    simp only [decide_eq_true_eq] at *
    exact String.le_trans hab hbc
  have htotal : ∀ a b : String, (decide (a ≤ b) || decide (b ≤ a)) = true := by
    intro a b
    simpa using String.le_total a b
  have hperm : (as.mergeSort (· ≤ ·)).Perm (bs.mergeSort (· ≤ ·)) :=
    (mergeSort_perm as _).trans (h.trans (mergeSort_perm bs _).symm)
  refine List.Perm.eq_of_pairwise ?_ (pairwise_mergeSort htrans htotal as)
    (pairwise_mergeSort htrans htotal bs) hperm
  intro a b _ _ hab hba
  exact String.le_antisymm (of_decide_eq_true hab) (of_decide_eq_true hba)

/-- Two normal forms that are the same have the same text. -/
def NormalType.SameText (n : NormalType) : Prop :=
  ∀ m, n.Same m → n.text = m.text

theorem NormalSignature.shape_eq {s s' : NormalSignature} (hs : s.Each SameText)
    (h : s.Same s') : s.shape = s'.shape := by
  obtain ⟨params, results, variadic⟩ := s
  obtain ⟨params', results', variadic'⟩ := s'
  simp only [NormalSignature.Same, sameNormals_iff] at h
  obtain ⟨hparams, hresults, rfl⟩ := h
  simp only [NormalSignature.shape, normalTexts_eq]
  rw [map_eq_map_of_forall₂ hparams hs.1, map_eq_map_of_forall₂ hresults hs.2]

theorem NormalTerm.text_eq {t t' : NormalTerm} (ht : t.type.SameText) (h : t.Same t') :
    t.text = t'.text := by
  obtain ⟨tilde, type⟩ := t
  obtain ⟨tilde', type'⟩ := t'
  simp only [NormalTerm.Same] at h
  obtain ⟨rfl, htype⟩ := h
  simp only [NormalTerm.text]
  rw [ht type' htype]

theorem NormalField.text_eq {f f' : NormalField} (hf : f.type.SameText) (h : f.Same f') :
    f.text = f'.text := by
  obtain ⟨name, type, tag⟩ := f
  obtain ⟨name', type', tag'⟩ := f'
  simp only [NormalField.Same] at h
  obtain ⟨rfl, htype, rfl⟩ := h
  simp only [NormalField.text]
  rw [hf type' htype]

theorem termTexts_eq_of_same {ts ts' : List NormalTerm} (hts : ∀ t ∈ ts, t.type.SameText)
    (h : SameNormalTerms ts ts') : termTexts ts = termTexts ts' := by
  rw [termTexts_eq, termTexts_eq]
  exact map_eq_map_of_forall₂ (sameNormalTerms_iff.1 h) fun t ht t' => NormalTerm.text_eq (hts t ht)

theorem NormalElement.text_eq {e e' : NormalElement} (he : e.Each NormalType.SameText)
    (h : e.Same e') : e.text = e'.text := by
  cases e with
  | method name sig =>
    cases e' with
    | embed type' => simp [NormalElement.Same] at h
    | method name' sig' =>
      simp only [NormalElement.Same] at h
      obtain ⟨rfl, hsig⟩ := h
      simp only [NormalElement.text, NormalSignature.shape_eq he hsig]
  | embed type =>
    cases e' with
    | method name' sig' => simp [NormalElement.Same] at h
    | embed type' =>
      simp only [NormalElement.Same] at h
      simp only [NormalElement.text]
      rcases type.terms_cases with ⟨terms, rfl, heq⟩ | heq
      · rw [NormalElement.Each, heq] at he
        cases type' with
        | union terms' =>
          simp only [NormalType.Same] at h
          simp only [NormalType.text, termTexts_eq_of_same he h]
        | _ => simp [NormalType.Same] at h
      · rw [NormalElement.Each, heq, forall_mem_singleton] at he
        exact he type' h

/-- Normal forms that differ in the order of elements have the same text. -/
theorem NormalType.sameText (n : NormalType) : n.SameText := by
  induction n using partsInduction with
  | named package name =>
    intro m h
    cases m <;> simp only [Same] at h
    obtain ⟨rfl, rfl⟩ := h
    rfl
  | generic base args ihbase ihargs =>
    intro m h
    cases m <;> simp only [Same] at h
    obtain ⟨hbase, hargs⟩ := h
    simp only [text, ihbase _ hbase, normalTexts_eq,
      map_eq_map_of_forall₂ (sameNormals_iff.1 hargs) ihargs]
  | pointer elem ih | slice elem ih =>
    intro m h
    cases m <;> simp only [Same] at h
    simp only [text, ih _ h]
  | array len elem ih | chan dir elem ih =>
    intro m h
    cases m <;> simp only [Same] at h
    obtain ⟨rfl, h⟩ := h
    simp only [text, ih _ h]
  | map key value ihkey ihvalue =>
    intro m h
    cases m <;> simp only [Same] at h
    simp only [text, ihkey _ h.1, ihvalue _ h.2]
  | func sig ih =>
    intro m h
    cases m <;> simp only [Same] at h
    simp only [text, NormalSignature.shape_eq ih h]
  | interface elems ih =>
    intro m h
    cases m <;> simp only [Same] at h
    rename_i elems'
    obtain ⟨elems'', hperm, helems⟩ := h
    have htexts : elementTexts elems = elementTexts elems'' := by
      rw [elementTexts_eq, elementTexts_eq]
      exact map_eq_map_of_forall₂ (sameNormalElements_iff.1 helems) fun e he e' =>
        NormalElement.text_eq (ih e he)
    have hsort : (elementTexts elems'').mergeSort (· ≤ ·) = (elementTexts elems').mergeSort (· ≤ ·) := by
      rw [elementTexts_eq, elementTexts_eq]
      exact mergeSort_eq_of_perm (hperm.symm.map _)
    simp only [text, htexts, hsort]
  | struct fields ih =>
    intro m h
    cases m <;> simp only [Same] at h
    rename_i fields'
    have htexts : fieldTexts fields = fieldTexts fields' := by
      rw [fieldTexts_eq, fieldTexts_eq]
      exact map_eq_map_of_forall₂ (sameNormalFields_iff.1 h) fun f hf f' =>
        NormalField.text_eq (ih f hf)
    simp only [text, htexts]
  | union terms ih =>
    intro m h
    cases m <;> simp only [Same] at h
    simp only [text, termTexts_eq_of_same ih h]

/-! ## Normal forms whose texts can be told apart -/

/-- The characters of import paths. -/
def isPathChar (c : Char) : Bool :=
  Lexeme.continuesIdent c || c = '-' || c = '.' || c = '/'

/-- Whether a text is an import path: it has the characters of one, and no name behind it and a
point looks like the mark of a variadic parameter. -/
def isPlainPath (path : String) : Bool :=
  path.toList.all isPathChar && !"...".toList.isPrefixOf (path.toList ++ ['.'])

/-- Whether a type in normal form is a name. -/
def NormalType.isNamed : NormalType → Bool
  | .named .. => true
  | _ => false

mutual

/-- A type in normal form as it comes from a type that was read: names are identifiers behind import
paths, only named types are instantiated, lengths and tags are such, and unions stand only as
elements of interfaces. -/
def NormalType.Clear : NormalType → Prop
  | .named package name => isIdentifier name = true ∧ ∀ path ∈ package, isPlainPath path = true
  | .generic base args => base.isNamed = true ∧ base.Clear ∧ args ≠ [] ∧ ∀ t ∈ args, t.Clear
  | .pointer elem => elem.Clear
  | .slice elem => elem.Clear
  | .array len elem => IsLength len ∧ elem.Clear
  | .map key value => key.Clear ∧ value.Clear
  | .chan _ elem => elem.Clear
  | .func sig => sig.Clear
  | .interface elems => ∀ e ∈ elems, e.Clear
  | .struct fields => ∀ f ∈ fields, f.Clear
  | .union _ => False
termination_by t => sizeOf t

/-- A signature of such types; a variadic parameter is a slice. -/
def NormalSignature.Clear : NormalSignature → Prop
  | ⟨params, results, variadic⟩ => (∀ t ∈ params, t.Clear) ∧ (∀ t ∈ results, t.Clear) ∧
      (variadic = true → ∃ before elem, params = before ++ [.slice elem])
termination_by s => sizeOf s
decreasing_by
  all_goals
    have := sizeOf_lt_of_mem ‹_ ∈ _›
    simp only [NormalSignature.mk.sizeOf_spec]
    omega

/-- An element of such types.  A union has several terms or one with a tilde. -/
def NormalElement.Clear : NormalElement → Prop
  | .method name sig => isIdentifier name = true ∧ sig.Clear
  | .embed (.union terms) => terms ≠ [] ∧ (∀ type, terms ≠ [⟨false, type⟩]) ∧ ∀ t ∈ terms, t.Clear
  | .embed type => type.Clear
termination_by e => sizeOf e

/-- A field of such a type. -/
def NormalField.Clear : NormalField → Prop
  | ⟨name, type, tag⟩ => (∀ n ∈ name, isIdentifier n = true) ∧ type.Clear ∧ ∀ t ∈ tag, IsTag t
termination_by f => sizeOf f

/-- A term of such a type. -/
def NormalTerm.Clear : NormalTerm → Prop
  | ⟨_, type⟩ => type.Clear
termination_by t => sizeOf t

end

theorem NormalSignature.clear_iff {s : NormalSignature} : s.Clear ↔ (∀ t ∈ s.params, t.Clear) ∧
    (∀ t ∈ s.results, t.Clear) ∧
      (s.variadic = true → ∃ before elem, s.params = before ++ [.slice elem]) := by
  obtain ⟨params, results, variadic⟩ := s
  simp only [NormalSignature.Clear]

theorem NormalField.clear_iff {f : NormalField} : f.Clear ↔
    (∀ n ∈ f.name, isIdentifier n = true) ∧ f.type.Clear ∧ ∀ t ∈ f.tag, IsTag t := by
  obtain ⟨name, type, tag⟩ := f
  simp only [NormalField.Clear]

theorem NormalTerm.clear_iff {t : NormalTerm} : t.Clear ↔ t.type.Clear := by
  obtain ⟨tilde, type⟩ := t
  simp only [NormalTerm.Clear]

theorem NormalElement.clear_terms {n : NormalType} (h : (NormalElement.embed n).Clear) :
    n.terms ≠ [] ∧ ∀ t ∈ n.terms, t.Clear := by
  cases n with
  | union terms =>
    simp only [NormalElement.Clear] at h
    exact ⟨h.1, h.2.2⟩
  | _ =>
    simp only [NormalElement.Clear] at h
    simpa [terms, NormalTerm.Clear] using h

end Stubwright
