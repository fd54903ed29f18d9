import Stubwright.Proofs.Format.Again

/-!
# Texts that types keep verbatim

The lengths of arrays and the tags of fields are kept as they were written.  A layout pass may change
both: a length that goes over a line, and a tag with carriage returns.

* `TypeExpr.stable_spelled`: the tokens of a printed type are tokens of it in a new layout.
-/

namespace Stubwright

open List
open TypeExpr hiding name

open Lexeme

/-! ## Lengths and tags -/

mutual

/-- The lengths of arrays in a type satisfy `length`, and the tags of fields `tag`. -/
def TypeExpr.HasTexts (length tag : String → Prop) : TypeExpr → Prop
  | .name _ | .qualified .. => True
  | .generic base args => base.HasTexts length tag ∧ ∀ a ∈ args, a.HasTexts length tag
  | .pointer elem => elem.HasTexts length tag
  | .slice elem => elem.HasTexts length tag
  | .array len elem => length len ∧ elem.HasTexts length tag
  | .map key value => key.HasTexts length tag ∧ value.HasTexts length tag
  | .chan _ elem => elem.HasTexts length tag
  | .func sig => sig.HasTexts length tag
  | .interface elems => ∀ e ∈ elems, e.HasTexts length tag
  | .struct fields => ∀ f ∈ fields, f.HasTexts length tag
  | .paren elem => elem.HasTexts length tag
  | .ellipsis elem => elem.HasTexts length tag
  | .union terms => ∀ t ∈ terms, t.HasTexts length tag

/-- The same of the types of a signature. -/
def Signature.HasTexts (length tag : String → Prop) : Signature → Prop
  | ⟨params, results⟩ =>
    (∀ p ∈ params, p.HasTexts length tag) ∧ ∀ p ∈ results, p.HasTexts length tag

/-- The same of the type of a group of parameters. -/
def Param.HasTexts (length tag : String → Prop) : Param → Prop
  | ⟨_, type⟩ => type.HasTexts length tag

/-- The same of the types of an element. -/
def Element.HasTexts (length tag : String → Prop) : Element → Prop
  | .method _ sig => sig.HasTexts length tag
  | .embed type => type.HasTexts length tag

/-- The same of the type and the tag of a group of fields. -/
def Field.HasTexts (length tag : String → Prop) : Field → Prop
  | ⟨_, type, text⟩ => type.HasTexts length tag ∧ ∀ t ∈ text, tag t

/-- The same of the type of a term. -/
def Term.HasTexts (length tag : String → Prop) : Term → Prop
  | ⟨_, type⟩ => type.HasTexts length tag

end

section

variable {length tag : String → Prop} {f : String → String}

theorem map_eq_self {α : Type} {g : α → α} {xs : List α} (h : ∀ x ∈ xs, g x = x) : xs.map g = xs :=
  (map_congr_left h).trans (map_id' xs)

/-- Exchanging the lengths changes nothing where they are exchanged for themselves. -/
theorem TypeExpr.withLengths_eq_self (hf : ∀ len, length len → f len = len) (t : TypeExpr)
    (h : t.HasTexts length tag) : t.withLengths f = t := by
  have hparam : ∀ ps : List Param, (∀ p ∈ ps, p.type.HasTexts length tag → p.type.withLengths f = p.type) →
      (∀ p ∈ ps, p.HasTexts length tag) → ps.map (fun p => p.withLengths f) = ps := by
    intro ps hps htexts
    refine map_eq_self fun p hp => ?_
    have hp' := htexts p hp
    have htype := hps p hp
    obtain ⟨names, type⟩ := p
    rw [Param.HasTexts] at hp'
    rw [Param.withLengths, htype hp']
  have hsig : ∀ sig : Signature, sig.Each (fun t => t.HasTexts length tag → t.withLengths f = t) →
      sig.HasTexts length tag → sig.withLengths f = sig := by
    rintro ⟨params, results⟩ hsig htexts
    rw [Signature.HasTexts] at htexts
    rw [Signature.withLengths, hparam _ hsig.1 htexts.1, hparam _ hsig.2 htexts.2]
  induction t using partsInduction with
  | name | qualified => rw [withLengths]
  | generic base args hbase hargs =>
    rw [HasTexts] at h
    rw [withLengths, hbase h.1, map_eq_self fun a ha => hargs a ha (h.2 a ha)]
  | pointer elem ih | slice elem ih | chan dir elem ih | paren elem ih | ellipsis elem ih =>
    rw [HasTexts] at h
    rw [withLengths, ih h]
  | array len elem ih =>
    rw [HasTexts] at h
    rw [withLengths, hf len h.1, ih h.2]
  | map key value hkey hvalue =>
    rw [HasTexts] at h
    rw [withLengths, hkey h.1, hvalue h.2]
  | func sig ih =>
    rw [HasTexts] at h
    rw [withLengths, hsig sig ih h]
  | interface elems ih =>
    rw [HasTexts] at h
    rw [withLengths, map_eq_self]
    intro e he
    have he' := h e he
    cases e with
    | method name sig =>
      rw [Element.HasTexts] at he'
      rw [Element.withLengths, hsig sig (ih _ he) he']
    | embed t =>
      have iht : t.HasTexts length tag → t.withLengths f = t := ih _ he
      rw [Element.HasTexts] at he'
      rw [Element.withLengths, iht he']
  | struct fields ih =>
    rw [HasTexts] at h
    rw [withLengths, map_eq_self]
    rintro ⟨names, type, text⟩ hd
    have hd' := h _ hd
    rw [Field.HasTexts] at hd'
    rw [Field.withLengths, ih _ hd hd'.1]
  | union terms ih =>
    rw [HasTexts] at h
    rw [withLengths, map_eq_self]
    rintro ⟨tilde, type⟩ ht
    have ht' := h _ ht
    rw [Term.HasTexts] at ht'
    rw [Term.withLengths, ih _ ht ht']

theorem TypeExpr.hasTexts_of_forall (hlength : ∀ len, length len) (htag : ∀ text, tag text)
    (t : TypeExpr) : t.HasTexts length tag := by
  have hparam : ∀ ps : List Param, (∀ p ∈ ps, p.type.HasTexts length tag) →
      ∀ p ∈ ps, p.HasTexts length tag := by
    rintro ps h ⟨names, type⟩ hp
    rw [Param.HasTexts]
    exact h _ hp
  have hsig : ∀ sig : Signature, sig.Each (HasTexts length tag) →
      sig.HasTexts length tag := by
    rintro ⟨params, results⟩ h
    rw [Signature.HasTexts]
    exact ⟨hparam _ h.1, hparam _ h.2⟩
  induction t using partsInduction with
  | name | qualified =>
    rw [HasTexts]
    trivial
  | generic base args hbase hargs =>
    rw [HasTexts]
    exact ⟨hbase, hargs⟩
  | pointer elem ih | slice elem ih | chan dir elem ih | paren elem ih | ellipsis elem ih =>
    rw [HasTexts]
    exact ih
  | array len elem ih =>
    rw [HasTexts]
    exact ⟨hlength len, ih⟩
  | map key value hkey hvalue =>
    rw [HasTexts]
    exact ⟨hkey, hvalue⟩
  | func sig ih =>
    rw [HasTexts]
    exact hsig sig ih
  | interface elems ih =>
    rw [HasTexts]
    intro e he
    cases e with
    | method name sig =>
      rw [Element.HasTexts]
      exact hsig sig (ih _ he)
    | embed t =>
      rw [Element.HasTexts]
      exact ih _ he
  | struct fields ih =>
    rw [HasTexts]
    rintro ⟨names, type, text⟩ hd
    rw [Field.HasTexts]
    exact ⟨ih _ hd, fun text _ => htag text⟩
  | union terms ih =>
    rw [HasTexts]
    rintro ⟨tilde, type⟩ ht
    rw [Term.HasTexts]
    exact ih _ ht

/-- What is asked of exchanged lengths is asked of what they are exchanged for. -/
theorem TypeExpr.hasTexts_withLengths (t : TypeExpr) :
    (t.withLengths f).HasTexts length tag ↔ t.HasTexts (fun len => length (f len)) tag := by
  have hparam : ∀ ps : List Param, (∀ p ∈ ps, (p.type.withLengths f).HasTexts length tag ↔
        p.type.HasTexts (fun len => length (f len)) tag) →
      ((∀ p ∈ ps.map fun p => p.withLengths f, p.HasTexts length tag) ↔
        ∀ p ∈ ps, p.HasTexts (fun len => length (f len)) tag) := by
    intro ps hps
    rw [forall_mem_map]
    refine forall₂_congr fun p hp => ?_
    have htype := hps p hp
    obtain ⟨names, type⟩ := p
    rw [Param.withLengths, Param.HasTexts, Param.HasTexts]
    exact htype
  have hsig : ∀ sig : Signature, sig.Each (fun t => (t.withLengths f).HasTexts length tag ↔
        t.HasTexts (fun len => length (f len)) tag) →
      ((sig.withLengths f).HasTexts length tag ↔
        sig.HasTexts (fun len => length (f len)) tag) := by
    rintro ⟨params, results⟩ hsig
    rw [Signature.withLengths, Signature.HasTexts, Signature.HasTexts]
    exact and_congr (hparam _ hsig.1) (hparam _ hsig.2)
  induction t using partsInduction with
  | name | qualified => rw [withLengths, HasTexts, HasTexts]
  | generic base args hbase hargs =>
    rw [withLengths, HasTexts, HasTexts, forall_mem_map]
    exact and_congr hbase (forall₂_congr hargs)
  | pointer elem ih | slice elem ih | chan dir elem ih | paren elem ih | ellipsis elem ih =>
    rw [withLengths, HasTexts, HasTexts]
    exact ih
  | array len elem ih =>
    rw [withLengths, HasTexts, HasTexts]
    exact and_congr_right fun _ => ih
  | map key value hkey hvalue =>
    rw [withLengths, HasTexts, HasTexts]
    exact and_congr hkey hvalue
  | func sig ih =>
    rw [withLengths, HasTexts, HasTexts]
    exact hsig sig ih
  | interface elems ih =>
    rw [withLengths, HasTexts, HasTexts, forall_mem_map]
    refine forall₂_congr fun e he => ?_
    cases e with
    | method name sig =>
      rw [Element.withLengths, Element.HasTexts, Element.HasTexts]
      exact hsig sig (ih _ he)
    | embed t =>
      rw [Element.withLengths, Element.HasTexts, Element.HasTexts]
      exact ih _ he
  | struct fields ih =>
    rw [withLengths, HasTexts, HasTexts, forall_mem_map]
    refine forall₂_congr fun d hd => ?_
    have htype := ih d hd
    obtain ⟨names, type, text⟩ := d
    rw [Field.withLengths, Field.HasTexts, Field.HasTexts]
    exact and_congr_left fun _ => htype
  | union terms ih =>
    rw [withLengths, HasTexts, HasTexts, forall_mem_map]
    refine forall₂_congr fun t ht => ?_
    have htype := ih t ht
    obtain ⟨tilde, type⟩ := t
    rw [Term.withLengths, Term.HasTexts, Term.HasTexts]
    exact htype

end

/-! ## Lengths on one line -/

/-- A text without line breaks. -/
def IsLine (text : String) : Prop :=
  hasBreak text.toList = false

instance (text : String) : Decidable (IsLine text) :=
  inferInstanceAs (Decidable (_ = _))

/-- A length on one line, and the same text for every length that is not. -/
def flatLength (len : String) : String :=
  if IsLine len then len else "\n"

theorem flatLength_eq_self {len : String} (h : IsLine len) : flatLength len = len :=
  if_pos h

theorem isLine_of_flatLength {len : String} (h : IsLine (flatLength len)) : IsLine len := by
  by_contra hno
  rw [flatLength, if_neg hno] at h
  exact absurd h (by decide)

/-- Any tag. -/
abbrev anyTag : String → Prop := fun _ => True

theorem TypeExpr.eq_of_withLengths {t t' : TypeExpr} (ht : t.HasTexts IsLine anyTag)
    (h : t'.withLengths flatLength = t.withLengths flatLength) : t' = t := by
  have hsame : ∀ len, IsLine len → flatLength len = len := fun _ => flatLength_eq_self
  rw [t.withLengths_eq_self hsame ht] at h
  have ht' : t'.HasTexts (fun len => IsLine (flatLength len)) anyTag := by
    rw [← t'.hasTexts_withLengths, h]
    exact ht
  have hsame' : ∀ len, IsLine (flatLength len) → flatLength len = len :=
    fun _ hlen => flatLength_eq_self (isLine_of_flatLength hlen)
  rw [← h, t'.withLengths_eq_self hsame' ht']

theorem Signature.eq_of_withLengths {sig sig' : Signature} (hsig : sig.HasTexts IsLine anyTag)
    (h : sig'.withLengths flatLength = sig.withLengths flatLength) : sig' = sig := by
  have hfunc : (TypeExpr.func sig).HasTexts IsLine anyTag := by
    rw [TypeExpr.HasTexts]
    exact hsig
  have heq : TypeExpr.func sig' = .func sig := by
    refine TypeExpr.eq_of_withLengths hfunc ?_
    rw [TypeExpr.withLengths, TypeExpr.withLengths, h]
  exact TypeExpr.func.inj heq

/-! ### Declarations -/

/-- The lengths and tags in a declared type. -/
def TypeSpec.HasTexts (length tag : String → Prop) (s : TypeSpec) : Prop :=
  (∀ p ∈ s.typeParams, p.constraint.HasTexts length tag) ∧ s.type.HasTexts length tag

/-- The lengths and tags in the types of a function. -/
def FuncDecl.HasTexts (length tag : String → Prop) (d : FuncDecl) : Prop :=
  (∀ p ∈ d.typeParams, p.constraint.HasTexts length tag) ∧ d.sig.HasTexts length tag

/-- The lengths and tags in the types of a declaration. -/
def Decl.HasTexts (length tag : String → Prop) : Decl → Prop
  | .types _ specs => ∀ s ∈ specs, s.HasTexts length tag
  | .func d => d.HasTexts length tag
  | .value _ => True

theorem map_eq_of_map_eq {α β γ : Type} {f : α → β} {g : α → γ} {xs xs' : List α}
    (h : xs'.map f = xs.map f) (hg : ∀ x ∈ xs, ∀ x', f x' = f x → g x' = g x) :
    xs'.map g = xs.map g := by
  induction xs generalizing xs' with
  | nil =>
    rw [map_eq_nil_iff.1 h]
  | cons x xs ih =>
    obtain ⟨x', xs'', rfl, hx, hxs⟩ := map_eq_cons_iff.1 h
    rw [map_cons, map_cons, hg x mem_cons_self x' hx,
      ih hxs fun y hy => hg y (mem_cons_of_mem x hy)]

theorem TypeParam.eq_of_withLengths {ps ps' : List TypeParam}
    (hps : ∀ p ∈ ps, p.constraint.HasTexts IsLine anyTag)
    (h : ps'.map (·.withLengths flatLength) = ps.map (·.withLengths flatLength)) : ps' = ps := by
  have hid : ps'.map id = ps.map id := by
    refine map_eq_of_map_eq h fun p hp p' heq => ?_
    obtain ⟨names, constraint⟩ := p
    obtain ⟨names', constraint'⟩ := p'
    obtain ⟨rfl, hconstraint⟩ := TypeParam.mk.inj heq
    obtain rfl : constraint' = constraint := TypeExpr.eq_of_withLengths (hps _ hp) hconstraint
    rfl
  rwa [map_id, map_id] at hid

theorem TypeSpec.unplaced_eq_of_withLengths {s s' : TypeSpec} (hs : s.HasTexts IsLine anyTag)
    (h : (s'.withLengths flatLength).unplaced = (s.withLengths flatLength).unplaced) :
    s'.unplaced = s.unplaced := by
  obtain ⟨hname, -, hparams, halias, htype⟩ := TypeSpec.mk.inj h
  exact (TypeSpec.mk.injEq ..).mpr ⟨hname, rfl, TypeParam.eq_of_withLengths hs.1 hparams, halias,
    eq_of_withLengths hs.2 htype⟩

theorem FuncDecl.unplaced_eq_of_withLengths {d d' : FuncDecl} (hd : d.HasTexts IsLine anyTag)
    (h : (d'.withLengths flatLength).unplaced = (d.withLengths flatLength).unplaced) :
    d'.unplaced = d.unplaced := by
  obtain ⟨hrecv, hname, hparams, hsig, hbody, -⟩ := FuncDecl.mk.inj h
  exact (FuncDecl.mk.injEq ..).mpr ⟨hrecv, hname, TypeParam.eq_of_withLengths hd.1 hparams,
    Signature.eq_of_withLengths hd.2 hsig, hbody, rfl⟩

/-- Declarations that agree but for their places and the lengths with a line break agree but for
their places, if the lengths of one of them have no line break. -/
theorem Decl.unplaced_eq_of_withLengths {d d' : Decl} (hd : d.HasTexts IsLine anyTag)
    (h : (d'.withLengths flatLength).unplaced = (d.withLengths flatLength).unplaced) :
    d'.unplaced = d.unplaced := by
  cases d with
  | types span specs =>
    cases d' with
    | types span' specs' =>
      have hspecs := (Decl.types.inj h).2
      rw [map_map, map_map] at hspecs
      rw [Decl.unplaced, Decl.unplaced,
        map_eq_of_map_eq hspecs fun s hs s' => TypeSpec.unplaced_eq_of_withLengths (hd s hs)]
    | _ => cases h
  | func d =>
    cases d' with
    | func d' =>
      rw [Decl.unplaced, Decl.unplaced, FuncDecl.unplaced_eq_of_withLengths hd (Decl.func.inj h)]
    | _ => cases h
  | value span =>
    cases d' with
    | value span' => rfl
    | _ => cases h

/-! ## Tokens in a new layout -/

/-- A token with the same kind and text in another layout. -/
structure Token.Alike (t t' : Token) : Prop where
  kind : t'.kind = t.kind
  text : t'.text = t.text
  lead : t.kind ≠ .semi → SameLead t.lead.toList t'.lead.toList

/-- What becomes of a token of a text in the layout pass. -/
structure Token.Relaid (t t' : Token) : Prop where
  isRead : t.IsRead
  entry : Entry.Relaid Layout.unixLines t.entry t'.entry

theorem Layout.unixLines_eq_self_of_not_mem {cs : List Char} (h : '\x0d' ∉ cs) : unixLines cs = cs :=
  unixLines_eq_self_of_short fun hlong => h (hlong.subset mem_cons_self)

namespace Token

variable {t t' : Token} {ts ts' : List Token}

theorem IsRead.head?_raw (h : t.IsRead) (hkind : t.kind = .rawStringLit) :
    t.text.toList.head? = some '\x60' := by
  rcases h with hsemi | ⟨c, u, z, htext, hscan⟩
  · cases hsemi.symm.trans hkind
  · rw [hkind] at hscan
    obtain ⟨rfl, -⟩ := scan_raw_iff.1 hscan
    rw [htext, String.toList_ofList]
    rfl

theorem Relaid.kind (h : t.Relaid t') : t'.kind = t.kind :=
  h.entry.kind

theorem Relaid.text_eq (h : t.Relaid t') (hraw : t.kind = .rawStringLit → '\x0d' ∉ t.text.toList) :
    t'.text = t.text := by
  refine String.toList_injective ?_
  have htext : t'.text.toList = if t.kind = .rawStringLit then Layout.unixLines t.text.toList
      else t.text.toList := h.entry.text
  rw [htext]
  split
  next hkind => exact Layout.unixLines_eq_self_of_not_mem (hraw hkind)
  next => rfl

theorem Relaid.alike (h : t.Relaid t') (hraw : t.kind = .rawStringLit → '\x0d' ∉ t.text.toList) :
    t.Alike t' :=
  ⟨h.kind, h.text_eq hraw, h.entry.lead⟩

theorem map_kind_of_forall₂ {R : Token → Token → Prop} (hR : ∀ {t t'}, R t t' → t'.kind = t.kind)
    (h : List.Forall₂ R ts ts') : ts'.map (·.kind) = ts.map (·.kind) := by
  induction h with
  | nil => rfl
  | cons ht _ ih => rw [map_cons, map_cons, hR ht, ih]

/-- The characters of tokens with what stands between them. -/
theorem toList_writtenText (t : Token) (ts : List Token) :
    (Parser.writtenText (t :: ts)).toList
      = t.text.toList ++ ts.flatMap fun u => u.lead.toList ++ u.text.toList := by
  have hjoin : ∀ ts : List Token, (String.join (ts.map fun u => u.lead ++ u.text)).toList =
      ts.flatMap fun u => u.lead.toList ++ u.text.toList := by
    intro ts
    induction ts with
    | nil => rfl
    | cons u ts ih => rw [map_cons, String.join_cons, String.toList_append, ih,
        String.toList_append, flatMap_cons]
  rw [Parser.writtenText, String.toList_append, hjoin]

/-- What is written in consecutive tokens stays the same in another layout, unless it has a line
break, and then it keeps one. -/
theorem sameLead_writtenText (h : List.Forall₂ Alike ts ts') (hsemi : ∀ t ∈ ts, t.kind ≠ .semi) :
    SameLead (Parser.writtenText ts).toList (Parser.writtenText ts').toList := by
  have hrest : ∀ {us us'}, List.Forall₂ Alike us us' → (∀ t ∈ us, t.kind ≠ .semi) → ∀ text,
      SameLead (text ++ us.flatMap fun u => u.lead.toList ++ u.text.toList)
        (text ++ us'.flatMap fun u => u.lead.toList ++ u.text.toList) := by
    intro us us' hus hsemi
    induction hus with
    | nil => exact fun text => .refl _
    | @cons u u' us us' hu hus ih =>
      intro text
      obtain ⟨hkind, hsemi⟩ := forall_mem_cons.1 hsemi
      rw [flatMap_cons, flatMap_cons, hu.text]
      rcases hu.lead hkind with hlead | ⟨hbreak, hbreak'⟩
      · rw [hlead]
        simpa only [append_assoc] using ih hsemi (text ++ (u.lead.toList ++ u.text.toList))
      · exact .inr ⟨by simp [hasBreak_append, hbreak], by simp [hasBreak_append, hbreak']⟩
  cases h with
  | nil => exact .refl _
  | cons ht hts =>
    rw [toList_writtenText, toList_writtenText, ht.text]
    exact hrest hts (forall_mem_cons.1 hsemi).2 _

theorem writtenText_eq (h : List.Forall₂ Alike ts ts') (hsemi : ∀ t ∈ ts, t.kind ≠ .semi)
    (hline : IsLine (Parser.writtenText ts)) : Parser.writtenText ts' = Parser.writtenText ts := by
  rcases sameLead_writtenText h hsemi with heq | ⟨hbreak, -⟩
  · exact String.toList_injective heq
  · rw [IsLine, hbreak] at hline
    cases hline

end Token

/-! ## Forms in a new layout -/

/-- A literal that is no raw string with a carriage return. -/
def NoReturn (literal : String) : Prop :=
  literal.toList.head? = some '\x60' → '\x0d' ∉ literal.toList

namespace Form

/-- Tokens of the form are of the form in a new layout. -/
def Stable (F : Form) : Prop :=
  ∀ ts ts', F ts → List.Forall₂ Token.Relaid ts ts' → F ts'

variable {F G : Form} {kind : TokenKind} {Fs : List Form}

theorem stable_nothing : nothing.Stable := by
  rintro ts ts' rfl h
  exact forall₂_nil_left_iff.1 h

theorem stable_one : (one kind).Stable := by
  rintro ts ts' ⟨t, rfl, hkind⟩ h
  obtain ⟨t', ts'', ht, hts, rfl⟩ := forall₂_cons_left_iff.1 h
  rw [forall₂_nil_left_iff.1 hts]
  exact ⟨t', rfl, ht.kind.trans hkind⟩

theorem stable_text {text : String} (hkind : kind ≠ .rawStringLit) : (Form.text kind text).Stable := by
  rintro ts ts' ⟨t, rfl, rfl, rfl⟩ h
  obtain ⟨t', ts'', ht, hts, rfl⟩ := forall₂_cons_left_iff.1 h
  rw [forall₂_nil_left_iff.1 hts]
  exact ⟨t', rfl, ht.kind, ht.text_eq fun hraw => absurd hraw hkind⟩

theorem exists_append_of_forall₂ {α β : Type} {R : α → β → Prop} {as bs : List α} {cs : List β}
    (h : List.Forall₂ R (as ++ bs) cs) :
    ∃ as' bs', cs = as' ++ bs' ∧ List.Forall₂ R as as' ∧ List.Forall₂ R bs bs' := by
  induction as generalizing cs with
  | nil => exact ⟨[], cs, rfl, .nil, h⟩
  | cons a as ih =>
    obtain ⟨c, cs', hac, hrest, rfl⟩ := forall₂_cons_left_iff.1 h
    obtain ⟨as', bs', rfl, has, hbs⟩ := ih hrest
    exact ⟨c :: as', bs', rfl, .cons hac has, hbs⟩

theorem Stable.seq (hF : F.Stable) (hG : G.Stable) : (F.seq G).Stable := by
  rintro ts ts' ⟨as, bs, has, hbs, rfl⟩ h
  obtain ⟨as', bs', rfl, has', hbs'⟩ := exists_append_of_forall₂ h
  exact ⟨as', bs', hF _ _ has has', hG _ _ hbs hbs', rfl⟩

theorem Stable.within {opening closing : TokenKind} (hF : F.Stable) :
    (Form.within opening closing F).Stable :=
  stable_one.seq (hF.seq stable_one)

theorem stable_separated {sep : TokenKind} (h : ∀ F ∈ Fs, F.Stable) :
    (separated sep Fs).Stable := by
  fun_induction separated sep Fs with
  | case1 => exact stable_nothing
  | case2 F => exact h F mem_cons_self
  | case3 F Fs _ ih =>
    obtain ⟨hF, hFs⟩ := forall_mem_cons.1 h
    exact hF.seq (stable_one.seq (ih hFs))

theorem stable_ended (h : ∀ F ∈ Fs, F.Stable) : (ended Fs).Stable := by
  induction Fs with
  | nil => exact stable_nothing
  | cons F Fs ih =>
    obtain ⟨hF, hFs⟩ := forall_mem_cons.1 h
    exact hF.seq (stable_one.seq (ih hFs))

theorem stable_words (names : List String) : (words names).Stable := by
  refine stable_separated fun F hF => ?_
  obtain ⟨name, -, rfl⟩ := mem_map.1 hF
  exact stable_text (by decide)

theorem stable_tag {tag : Option String} (h : ∀ text ∈ tag, NoReturn text) :
    (Form.tag tag).Stable := by
  cases tag with
  | none => exact stable_nothing
  | some text =>
    rintro ts ts' ⟨t, rfl, htag, rfl⟩ hts
    obtain ⟨t', ts'', ht, hrest, rfl⟩ := forall₂_cons_left_iff.1 hts
    rw [forall₂_nil_left_iff.1 hrest]
    exact ⟨t', rfl, (congrArg (fun k => Parser.isTag (some k)) ht.kind).trans htag,
      ht.text_eq fun hraw => h _ rfl (ht.isRead.head?_raw hraw)⟩

theorem stable_length {len : String} (hlen : IsLength len) (hline : IsLine len) :
    (Form.length len).Stable := by
  rintro ts ts' ⟨hkinds, htext⟩ h
  have hsemi : ∀ t ∈ ts, t.kind ≠ .semi := by
    intro t ht
    refine ne_semi_of_spansLength hlen.2.1 _ ?_
    rw [← hkinds]
    exact mem_map_of_mem ht
  have hbreak : ∀ t ∈ ts, hasBreak t.text.toList = false := by
    cases ts with
    | nil => simp
    | cons t ts =>
      rw [IsLine, ← htext, Token.toList_writtenText, hasBreak_append, Bool.or_eq_false_iff] at hline
      refine forall_mem_cons.2 ⟨hline.1, fun u hu => ?_⟩
      refine any_eq_false.2 fun c hc => ?_
      refine any_eq_false.1 hline.2 c (mem_flatMap.2 ⟨u, hu, ?_⟩)
      exact mem_append_right _ hc
  have halike : List.Forall₂ Token.Alike ts ts' := by
    refine ((forall₂_and_left ..).2 ⟨hbreak, h⟩).imp ?_
    rintro t t' ⟨hbreak, ht⟩
    exact ht.alike fun _ => not_mem_of_hasBreak hbreak rfl
  refine ⟨(Token.map_kind_of_forall₂ Token.Alike.kind halike).trans hkinds, ?_⟩
  rw [Token.writtenText_eq halike hsemi (by rwa [htext]), htext]

end Form

/-- The tokens of a printed type are tokens of it in a new layout, if its lengths have no line break
and its raw tags no carriage return. -/
def TypeExpr.SpelledStably (t : TypeExpr) : Prop :=
  ∀ place, t.Written place → t.HasTexts IsLine NoReturn → t.Spelled.Stable

theorem Param.stable_spelled {p : Param} (htype : p.type.SpelledStably) (hform : p.Formed identified)
    (htexts : p.HasTexts IsLine NoReturn) : p.Spelled.Stable := by
  obtain ⟨names, type⟩ := p
  rw [Param.Formed] at hform
  rw [Param.HasTexts] at htexts
  rw [Param.Spelled]
  exact (Form.stable_words names).seq (htype .param hform.2 htexts)

theorem Param.stable_separated {ps : List Param} (htypes : ∀ p ∈ ps, p.type.SpelledStably)
    (hform : ∀ p ∈ ps, p.Formed identified) (htexts : ∀ p ∈ ps, p.HasTexts IsLine NoReturn) :
    (Form.within .lParen .rParen (Form.separated .comma (ps.map fun p => p.Spelled))).Stable := by
  refine Form.Stable.within (Form.stable_separated ?_)
  intro F hF
  obtain ⟨p, hp, rfl⟩ := mem_map.1 hF
  exact Param.stable_spelled (htypes p hp) (hform p hp) (htexts p hp)

theorem Signature.stable_spelled {sig : Signature} (htypes : sig.Each SpelledStably)
    (hform : sig.Formed identified) (htexts : sig.HasTexts IsLine NoReturn) : sig.Spelled.Stable := by
  obtain ⟨params, results⟩ := sig
  rw [Signature.Formed] at hform
  rw [Signature.HasTexts] at htexts
  have hparams : (Form.within .lParen .rParen
      (Form.separated .comma (params.map fun p => p.Spelled))).Stable :=
    Param.stable_separated htypes.1 hform.1 htexts.1
  by_cases hnone : results = []
  · subst hnone
    rw [Signature.Spelled]
    exact hparams
  by_cases hsingle : ∃ type, results = [⟨[], type⟩]
  · obtain ⟨type, rfl⟩ := hsingle
    have hparam := hform.2.1 _ mem_cons_self
    have htext := htexts.2 _ mem_cons_self
    rw [Param.Formed] at hparam
    rw [Param.HasTexts] at htext
    rw [Signature.Spelled]
    exact hparams.seq (htypes.2 _ mem_cons_self .param hparam.2 htext)
  · rw [Signature.Spelled.eq_3 _ _ hnone fun type heq => hsingle ⟨type, heq⟩]
    exact hparams.seq (Param.stable_separated htypes.2 hform.2.1 htexts.2)

theorem TypeExpr.spelledStably (t : TypeExpr) : t.SpelledStably := by
  intro place hform htexts
  induction t using partsInduction generalizing place with
    (rw [Written, Formed] at hform; rw [HasTexts] at htexts; rw [Spelled])
  | name n => exact Form.stable_text (by decide)
  | qualified p n =>
    exact (Form.stable_text (by decide)).seq (Form.stable_one.seq (Form.stable_text (by decide)))
  | generic base args hbase hargs =>
    refine (hbase .plain hform.2.1 htexts.1).seq (Form.Stable.within (Form.stable_separated ?_))
    intro F hF
    obtain ⟨a, ha, rfl⟩ := mem_map.1 hF
    exact hargs a ha .plain (hform.2.2.2 a ha) (htexts.2 a ha)
  | pointer elem ih => exact Form.stable_one.seq (ih .plain hform htexts)
  | slice elem ih => exact Form.stable_nothing.within.seq (ih .plain hform htexts)
  | array len elem ih =>
    exact (Form.stable_length hform.1 htexts.1).within.seq (ih .plain hform.2 htexts.2)
  | map key value hkey hvalue =>
    exact Form.stable_one.seq
      ((hkey .plain hform.1 htexts.1).within.seq (hvalue .plain hform.2 htexts.2))
  | chan dir elem ih =>
    have helem := ih .plain hform htexts
    have hdir : dir.Spelled.Stable := by
      cases dir with
      | both => exact Form.stable_one
      | send | recv => exact Form.stable_one.seq Form.stable_one
    refine hdir.seq ?_
    split
    · exact helem.within
    · exact helem
  | func sig ih => exact Form.stable_one.seq (Signature.stable_spelled ih hform htexts)
  | interface elems ih =>
    refine Form.stable_one.seq (Form.Stable.within (Form.stable_ended ?_))
    intro F hF
    obtain ⟨e, he, rfl⟩ := mem_map.1 hF
    have hform' := hform e he
    have htexts' := htexts e he
    cases e with
      (rw [Element.Formed] at hform'; rw [Element.HasTexts] at htexts'; rw [Element.Spelled])
    | method name sig =>
      exact (Form.stable_text (by decide)).seq
        (Signature.stable_spelled (ih _ he) hform'.2 htexts')
    | embed t =>
      have iht : t.SpelledStably := ih _ he
      exact iht .embed hform' htexts'
  | struct fields ih =>
    refine Form.stable_one.seq (Form.Stable.within (Form.stable_ended ?_))
    intro F hF
    obtain ⟨⟨names, type, tag⟩, hd, rfl⟩ := mem_map.1 hF
    have hform' := hform _ hd
    have htexts' := htexts _ hd
    rw [Field.Formed] at hform'
    rw [Field.HasTexts] at htexts'
    rw [Field.Spelled]
    exact (Form.stable_words names).seq
      ((ih _ hd .plain hform'.2.2.1 htexts'.1).seq (Form.stable_tag htexts'.2))
  | paren elem ih => exact (ih .plain hform htexts).within
  | ellipsis elem ih => exact Form.stable_one.seq (ih .plain hform.2 htexts)
  | union terms ih =>
    refine Form.stable_separated ?_
    intro F hF
    obtain ⟨⟨tilde, type⟩, ht, rfl⟩ := mem_map.1 hF
    have hform' := hform.2.2.2 _ ht
    have htexts' := htexts _ ht
    rw [Term.Formed] at hform'
    rw [Term.HasTexts] at htexts'
    rw [Term.Spelled]
    have htype := ih _ ht .plain hform' htexts'
    split
    · exact Form.stable_one.seq htype
    · exact Form.stable_nothing.seq htype

end Stubwright
