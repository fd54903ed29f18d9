import Stubwright.Proofs.NormalText
import Mathlib

/-!
# Reading normal forms back from their texts

The text of a type in normal form identifies it: whatever follows, as long as it can stand behind a
type, the text and what follows determine the type, up to the order of the elements of interfaces,
and where its text ends.

* `NormalType.text_eq_iff`, `NormalSignature.display_eq_iff`: texts identify what they are of.
-/

namespace Stubwright

open List

open NormalType

variable {s s' : NormalSignature} {n m : NormalType} {k r l : List Char} {name : String}

/-- The text of a type tells which type it is and where it ends. -/
def NormalType.Reads (n : NormalType) : Prop :=
  n.Clear → ∀ m : NormalType, m.Clear →
    TellsApart (fun n : NormalType => n.text.toList) (fun k => endsText k = true) Same n m

/-! ### Signatures -/

/-- The parameters of a signature, each with whether it is the variadic one. -/
def NormalSignature.items (s : NormalSignature) : List (Bool × NormalType) :=
  if s.variadic then
    s.params.dropLast.map (false, ·) ++ s.params.getLast?.toList.map (true, ·)
  else s.params.map (false, ·)

/-- A parameter as it is displayed. -/
def itemText : Bool × NormalType → String
  | (false, type) => type.text
  | (true, type) => MethodShape.spread type.text

theorem NormalSignature.displayedParams_shape (s : NormalSignature) :
    s.shape.displayedParams = s.items.map itemText := by
  obtain ⟨params, results, variadic⟩ := s
  cases variadic with
  | false => simp [MethodShape.displayedParams, NormalSignature.shape, NormalSignature.items,
      normalTexts_eq, itemText, Function.comp_def]
  | true =>
    cases hlast : params.getLast? <;>
    simp [MethodShape.displayedParams, NormalSignature.shape, NormalSignature.items,
      normalTexts_eq, itemText, getLast?_map, map_dropLast, hlast, Function.comp_def]

theorem NormalSignature.items_snd (s : NormalSignature) : s.items.map (·.2) = s.params := by
  unfold NormalSignature.items
  split
  · cases h : s.params.getLast? with
    | none => simp_all
    | some a => simpa [Function.comp_def] using dropLast_append_getLast? a h
  · simp [Function.comp_def]

theorem NormalSignature.items_any (hs : s.Clear) : s.items.any (·.1) = s.variadic := by
  obtain ⟨params, results, variadic⟩ := s
  cases variadic with
  | false => simp [NormalSignature.items]
  | true =>
    simp only [NormalSignature.Clear] at hs
    obtain ⟨before, elem, rfl⟩ := hs.2.2 trivial
    simp [NormalSignature.items]

theorem NormalSignature.items_clear (hs : s.Clear) {item : Bool × NormalType}
    (hitem : item ∈ s.items) :
    item.2.Clear ∧ item.2 ∈ s.params ∧ (item.1 = true → ∃ elem, item.2 = .slice elem) := by
  have hmem : item.2 ∈ s.params := by
    rw [← s.items_snd]
    exact mem_map_of_mem hitem
  obtain ⟨params, results, variadic⟩ := s
  simp only [NormalSignature.Clear] at hs
  refine ⟨hs.1 _ hmem, hmem, fun hflag => ?_⟩
  cases variadic with
  | false =>
    simp only [NormalSignature.items, Bool.false_eq_true, if_false, mem_map] at hitem
    obtain ⟨t, -, rfl⟩ := hitem
    cases hflag
  | true =>
    obtain ⟨before, elem, rfl⟩ := hs.2.2 rfl
    simp [NormalSignature.items] at hitem
    rcases hitem with ⟨t, -, rfl⟩ | rfl
    · cases hflag
    · exact ⟨elem, rfl⟩

/-- A type does not start with the mark of a variadic parameter. -/
theorem NormalType.not_ellipsis (hn : n.Clear) (hk : endsText k = true) :
    n.text.toList ++ k ≠ '.' :: '.' :: '.' :: r := by
  intro heq
  have hsort := leadSort_text hn hk
  -- only a name starts with a point
  have hnamed : ∀ package name r', (named package name).Clear →
      (named package name).text.toList ++ r' ≠ '.' :: '.' :: '.' :: r := by
    intro package name r' h heq
    simp only [Clear] at h
    obtain ⟨hname, hpath⟩ := h
    obtain ⟨c, u, hname', hc, -⟩ := isIdentifier_iff.1 hname
    have hpoint : c ≠ '.' := by
      rintro rfl
      exact absurd hc (by decide)
    cases package with
    | none =>
      rw [text, hname'] at heq
      exact hpoint (List.cons.inj heq).1
    | some path =>
      have hplain := hpath path rfl
      simp only [isPlainPath, Bool.and_eq_true, Bool.not_eq_true'] at hplain
      have htext : (named (some path) name).text.toList
          = path.toList ++ '.' :: c :: u := by
        simp [text, hname']
      rw [htext] at heq
      have hno := hplain.2
      -- the path has at least two characters, and they are points
      rcases hp : path.toList with _ | ⟨a, _ | ⟨b, _ | ⟨d, rest⟩⟩⟩ <;> rw [hp] at heq hno
      · simp [hpoint] at heq
      · simp [hpoint] at heq
      · simp at heq
        obtain ⟨rfl, rfl, -⟩ := heq
        cases hno
      · simp at heq
        obtain ⟨rfl, rfl, rfl, -⟩ := heq
        cases hno
  obtain ⟨c, u, hhead, -⟩ := n.exists_head hn
  cases n with
  | named package name => exact hnamed package name k hn heq
  | generic base args =>
    simp only [Clear] at hn
    cases base with
    | named package name =>
      rw [text] at heq
      simp only [String.toList_append, append_assoc] at heq
      exact hnamed package name _ hn.2.1 heq
    | _ => cases hn.1
  | chan dir elem => cases dir <;> simp [text, ChanDir.keyword] at heq
  | union terms => simp [Clear] at hn
  | _ => simp [text] at heq

/-- Displayed parameters can be told apart. -/
theorem tellsApart_item {a b : Bool × NormalType} (ha : a.2.Clear) (hb : b.2.Clear)
    (hreads : a.2.Reads) (hspread : a.1 = true → ∃ elem, a.2 = .slice elem)
    (hspread' : b.1 = true → ∃ elem, b.2 = .slice elem) :
    TellsApart (fun i => (itemText i).toList) (fun k => endsText k = true)
      (fun a b => a.1 = b.1 ∧ a.2.Same b.2) a b := by
  have hdots : ∀ elem : NormalType, (itemText (true, .slice elem)).toList
      = '.' :: '.' :: '.' :: elem.text.toList := by
    intro elem
    simp [itemText, MethodShape.spread, text]
  obtain ⟨flag, type⟩ := a
  obtain ⟨flag', type'⟩ := b
  intro k l hk hl h
  cases flag with
  | false =>
    cases flag' with
    | false =>
      obtain ⟨hsame, hkl⟩ := hreads ha type' hb k l hk hl h
      exact ⟨⟨rfl, hsame⟩, hkl⟩
    | true =>
      obtain ⟨elem, rfl⟩ := hspread' rfl
      simp only [hdots, cons_append] at h
      exact absurd h (not_ellipsis ha hk)
  | true =>
    obtain ⟨elem, rfl⟩ := hspread rfl
    cases flag' with
    | false =>
      simp only [hdots, cons_append] at h
      exact absurd h.symm (not_ellipsis hb hl)
    | true =>
      obtain ⟨elem', rfl⟩ := hspread' rfl
      simp only [hdots, cons_append, List.cons.injEq, true_and] at h
      obtain ⟨hsame, hkl⟩ := hreads ha _ hb k l hk hl (by simp [text, h])
      exact ⟨⟨rfl, hsame⟩, hkl⟩

theorem tellsApart_results {rs rs' : List NormalType} (hrs : ∀ t ∈ rs, t.Clear)
    (hrs' : ∀ t ∈ rs', t.Clear) (hreads : ∀ t ∈ rs, t.Reads) (hk : endsText k = true)
    (hl : endsText l = true)
    (h : (MethodShape.displayedResults ⟨[], normalTexts rs, false⟩).toList ++ k
      = (MethodShape.displayedResults ⟨[], normalTexts rs', false⟩).toList ++ l) :
    List.Forall₂ Same rs rs' ∧ k = l := by
  have hparen : opensType '(' = false := opensType_mark _ (by simp)
  simp only [normalTexts_eq] at h
  match rs, rs' with
  | [], [] =>
    simp only [MethodShape.displayedResults, map_nil] at h
    exact ⟨.nil, by simpa using h⟩
  | [], [b] =>
    simp [MethodShape.displayedResults] at h
    rw [h, endsText_space (hrs' b (by simp))] at hk
    cases hk
  | [], b :: b' :: bs =>
    simp [MethodShape.displayedResults] at h
    rw [h] at hk
    cases hk
  | [a], [] =>
    simp [MethodShape.displayedResults] at h
    rw [← h, endsText_space (hrs a (by simp))] at hl
    cases hl
  | [a], [b] =>
    simp [MethodShape.displayedResults] at h
    obtain ⟨hsame, hkl⟩ := hreads a (by simp) (hrs a (by simp)) b (hrs' b (by simp)) k l hk hl h
    exact ⟨.cons hsame .nil, hkl⟩
  | [a], b :: b' :: bs =>
    simp [MethodShape.displayedResults] at h
    have hhead := head?_ne (hrs a (by simp)) k hparen
    rw [h] at hhead
    simp at hhead
  | a :: a' :: as, [] =>
    simp [MethodShape.displayedResults] at h
    rw [← h] at hl
    cases hl
  | a :: a' :: as, [b] =>
    simp [MethodShape.displayedResults] at h
    have hhead := head?_ne (hrs' b (by simp)) l hparen
    rw [← h] at hhead
    simp at hhead
  | a :: a' :: as, b :: b' :: bs =>
    have hmany : ∀ (t t' : NormalType) (ts : List NormalType) (r : List Char),
        (MethodShape.displayedResults
          ⟨[], (t :: t' :: ts).map text, false⟩).toList ++ r
        = ' ' :: '(' :: (", ".toList.intercalate ((t :: t' :: ts).map fun t => t.text.toList)
            ++ ')' :: r) := by
      intro t t' ts r
      simp [MethodShape.displayedResults, Function.comp_def]
    rw [hmany, hmany] at h
    simp only [List.cons.injEq, true_and] at h
    have hclose : opensType ')' = false := opensType_mark _ (by simp)
    exact forall₂_of_closed (E := fun k => endsText k = true)
      (fun x hx y hy => hreads x hx (hrs x hx) y (hrs' y hy)) (fun r => rfl) (fun r => rfl)
      (by decide) (by decide) (fun x hx r => head?_ne (hrs x hx) r hclose)
      (fun y hy r => head?_ne (hrs' y hy) r hclose) h

theorem NormalSignature.same_of_display (hs : s.Clear) (hs' : s'.Clear)
    (hreads : s.Each NormalType.Reads) (hk : endsText k = true) (hl : endsText l = true)
    (h : s.shape.display.toList ++ k = s'.shape.display.toList ++ l) : s.Same s' ∧ k = l := by
  have hdisplay : ∀ (s : NormalSignature) (r : List Char), s.shape.display.toList ++ r
      = '(' :: (", ".toList.intercalate (s.items.map fun i => (itemText i).toList) ++ ')' ::
        ((MethodShape.displayedResults ⟨[], normalTexts s.results, false⟩).toList ++ r)) := by
    intro s r
    have hresults : s.shape.displayedResults
        = MethodShape.displayedResults ⟨[], normalTexts s.results, false⟩ := by
      obtain ⟨params, results, variadic⟩ := s
      rfl
    simp [MethodShape.display, s.displayedParams_shape, hresults, Function.comp_def]
  rw [hdisplay, hdisplay] at h
  simp only [List.cons.injEq, true_and] at h
  have hopen : ∀ s : NormalSignature, s.Clear → ∀ a ∈ s.items, ∀ r,
      ((itemText a).toList ++ r).head? ≠ some ')' := by
    intro s hs a ha r
    obtain ⟨hclear, -, hspread⟩ := NormalSignature.items_clear hs ha
    obtain ⟨flag, type⟩ := a
    cases flag with
    | false => exact NormalType.head?_ne hclear r (opensType_mark _ (by simp))
    | true =>
      obtain ⟨elem, rfl⟩ := hspread rfl
      simp [itemText, MethodShape.spread, NormalType.text]
  have happart : ∀ a ∈ s.items, ∀ b ∈ s'.items, TellsApart (fun i => (itemText i).toList)
      (fun k => endsText k = true) (fun a b => a.1 = b.1 ∧ a.2.Same b.2) a b := by
    intro a ha b hb
    obtain ⟨hclear, hmem, hspread⟩ := NormalSignature.items_clear hs ha
    obtain ⟨hclear', -, hspread'⟩ := NormalSignature.items_clear hs' hb
    exact tellsApart_item hclear hclear' (hreads.1 _ hmem) hspread hspread'
  obtain ⟨hitems, hrest⟩ := forall₂_of_closed happart (fun r => rfl) (fun r => rfl) (by decide)
    (by decide) (hopen s hs) (hopen s' hs') h
  obtain ⟨hresults, hkl⟩ := tellsApart_results (NormalSignature.clear_iff.1 hs).2.1
    (NormalSignature.clear_iff.1 hs').2.1 hreads.2 hk hl hrest
  have hparams : List.Forall₂ NormalType.Same s.params s'.params := by
    rw [← s.items_snd, ← s'.items_snd]
    exact forall₂_map_left_iff.2 (forall₂_map_right_iff.2 (hitems.imp fun a b h => h.2))
  have hvariadic : s.variadic = s'.variadic := by
    have hflags : s.items.map (·.1) = s'.items.map (·.1) :=
      map_eq_map_of_forall₂ hitems fun a _ b h => h.1
    rw [← s.items_any hs, ← s'.items_any hs']
    simpa [any_map] using congrArg (List.any · id) hflags
  obtain ⟨params, results, variadic⟩ := s
  obtain ⟨params', results', variadic'⟩ := s'
  simp only [NormalSignature.Same, sameNormals_iff]
  exact ⟨⟨hparams, hresults, hvariadic⟩, hkl⟩

/-! ### Elements, terms and fields -/

/-- Whether a text can stand behind an element of an interface or a field. -/
def EndsMember (k : List Char) : Prop :=
  k.head? = some ';' ∨ k.head? = some '\x7d'

theorem EndsMember.endsText (hk : EndsMember k) : endsText k = true := by
  cases k with
  | nil => simp [EndsMember] at hk
  | cons c k =>
    simp only [EndsMember, head?_cons, Option.some.injEq] at hk
    rcases hk with rfl | rfl <;> rfl

theorem NormalTerm.tellsApart {t t' : NormalTerm} (ht : t.Clear) (ht' : t'.Clear)
    (hreads : t.type.Reads) :
    TellsApart (fun t : NormalTerm => t.text.toList) (fun k => endsText k = true) NormalTerm.Same
      t t' := by
  obtain ⟨tilde, type⟩ := t
  obtain ⟨tilde', type'⟩ := t'
  simp only [NormalTerm.Clear] at ht ht'
  have hmark : opensType '~' = false := opensType_mark _ (by simp)
  intro k l hk hl h
  cases tilde with
  | false =>
    cases tilde' with
    | false =>
      obtain ⟨hsame, hkl⟩ := hreads ht type' ht' k l hk hl (by simpa [NormalTerm.text] using h)
      exact ⟨by simpa [NormalTerm.Same] using hsame, hkl⟩
    | true =>
      have hhead := head?_ne ht k hmark
      simp [NormalTerm.text] at h
      simp [h] at hhead
  | true =>
    cases tilde' with
    | false =>
      have hhead := head?_ne ht' l hmark
      simp [NormalTerm.text] at h
      simp [← h] at hhead
    | true =>
      obtain ⟨hsame, hkl⟩ := hreads ht type' ht' k l hk hl (by simpa [NormalTerm.text] using h)
      exact ⟨by simpa [NormalTerm.Same] using hsame, hkl⟩

theorem NormalType.text_eq_terms (n : NormalType) :
    n.text = String.intercalate " | " (n.terms.map NormalTerm.text) := by
  cases n with
  | union terms => rw [NormalType.text, NormalType.terms, termTexts_eq]
  | _ => simp [NormalType.terms, NormalTerm.text]

theorem NormalElement.same_of_terms (hn : (NormalElement.embed n).Clear)
    (hm : (NormalElement.embed m).Clear) (h : List.Forall₂ NormalTerm.Same n.terms m.terms) :
    n.Same m := by
  -- a union is not a lone type
  have hlone : ∀ (terms : List NormalTerm) (type : NormalType),
      (NormalElement.embed (.union terms)).Clear →
      ¬List.Forall₂ NormalTerm.Same terms [⟨false, type⟩] ∧
      ¬List.Forall₂ NormalTerm.Same [⟨false, type⟩] terms := by
    intro terms type hclear
    simp only [NormalElement.Clear] at hclear
    constructor
    · rintro (_ | ⟨hsame, ⟨⟩⟩)
      rename_i t
      obtain ⟨tilde, type'⟩ := t
      simp only [NormalTerm.Same] at hsame
      exact hclear.2.1 type' (by rw [hsame.1])
    · rintro (_ | ⟨hsame, ⟨⟩⟩)
      rename_i t
      obtain ⟨tilde, type'⟩ := t
      simp only [NormalTerm.Same] at hsame
      exact hclear.2.1 type' (by rw [← hsame.1])
  cases n with
  | union terms =>
    cases m with
    | union terms' =>
      simp only [NormalType.Same, sameNormalTerms_iff]
      exact h
    | _ => exact absurd h (hlone terms _ hn).1
  | _ =>
    cases m with
    | union terms' => exact absurd h (hlone terms' _ hm).2
    | _ => simpa [NormalType.terms, NormalTerm.Same] using h

theorem NormalElement.method_ne_embed (hname : isIdentifier name = true)
    (hn : (NormalElement.embed n).Clear) (hk : EndsMember k) :
    name.toList ++ '(' :: r ≠ n.text.toList ++ k := by
  intro heq
  obtain ⟨c, u, hchars, hc, -, -⟩ := isIdentifier_iff.1 hname
  have hstart : c ≠ '~' := by
    rintro rfl
    exact absurd hc (by decide)
  have hparen : isPathChar '(' = false := isPathChar_mark _ (by simp)
  have hall := all_isPathChar_of_isIdentifier hname
  obtain ⟨hne, hclear⟩ := NormalElement.clear_terms hn
  obtain ⟨⟨tilde, type⟩, ts, hterms⟩ := exists_cons_of_ne_nil hne
  -- what stands behind the first term
  obtain ⟨k', hk', htext⟩ : ∃ k', endsText k' = true ∧
      n.text.toList ++ k = (NormalTerm.text ⟨tilde, type⟩).toList ++ k' := by
    rw [n.text_eq_terms, hterms]
    cases ts with
    | nil => exact ⟨k, hk.endsText, by simp⟩
    | cons t ts =>
      refine ⟨" | ".toList ++ ((String.intercalate " | " ((t :: ts).map NormalTerm.text)).toList ++ k),
        rfl, ?_⟩
      simp only [map_cons, String.intercalate_cons_cons, String.toList_append, append_assoc]
  rw [htext] at heq
  have htype : type.Clear := by simpa [NormalTerm.Clear] using hclear ⟨tilde, type⟩ (by simp [hterms])
  cases tilde with
  | true =>
    rw [hchars] at heq
    simp [NormalTerm.text, hstart] at heq
  | false =>
    simp only [NormalTerm.text, Bool.false_eq_true, if_false, String.empty_append] at heq
    have hsort := NormalType.leadSort_text htype hk'
    rw [← heq, leadSort_append hall (by simpa using hparen),
      sortOf_name (by simp [hchars]) (isIdentifier_notMem hname)] at hsort
    cases type with
    | named package name' =>
      have hword := (NormalType.named_text htype).1
      obtain ⟨-, rfl⟩ := eq_of_append_path hall hword (by simpa using hparen)
        (head?_of_endsText hk') heq
      cases hk'
    | union terms => simp [NormalType.Clear] at htype
    | _ => cases hsort

theorem NormalElement.tellsApart {e e' : NormalElement} (he : e.Clear) (he' : e'.Clear)
    (hreads : e.Each Reads) :
    TellsApart (fun e : NormalElement => e.text.toList) EndsMember NormalElement.Same e e' := by
  intro k l hk hl h
  have hmethod : ∀ (name : String) (sig : NormalSignature) (r : List Char),
      (NormalElement.method name sig).text.toList ++ r
        = name.toList ++ (sig.shape.display.toList ++ r) := by
    intro name sig r
    simp [NormalElement.text]
  have hdisplay : ∀ (s : MethodShape) (r : List Char), ∃ r', s.display.toList ++ r = '(' :: r' := by
    intro s r
    exact ⟨_, by simp [MethodShape.display]; rfl⟩
  have hparen : ∀ r, ('(' :: r).head?.any isPathChar = false := by
    intro r
    simpa using isPathChar_mark '(' (by simp)
  cases e with
  | method name sig =>
    cases e' with
    | method name' sig' =>
      simp only [NormalElement.Clear] at he he'
      simp only [hmethod] at h
      obtain ⟨r, hr⟩ := hdisplay sig.shape k
      obtain ⟨r', hr'⟩ := hdisplay sig'.shape l
      obtain ⟨hname, hsig⟩ := eq_of_append_path (all_isPathChar_of_isIdentifier he.1)
        (all_isPathChar_of_isIdentifier he'.1) (hr ▸ hparen r) (hr' ▸ hparen r') h
      obtain ⟨hsame, hkl⟩ := NormalSignature.same_of_display he.2 he'.2 hreads hk.endsText hl.endsText
        hsig
      exact ⟨by simpa [NormalElement.Same] using ⟨String.toList_inj.1 hname, hsame⟩, hkl⟩
    | embed type' =>
      simp only [NormalElement.Clear] at he
      obtain ⟨r, hr⟩ := hdisplay sig.shape k
      simp only [hmethod, hr] at h
      exact absurd h (NormalElement.method_ne_embed he.1 he' hl)
  | embed type =>
    cases e' with
    | method name' sig' =>
      simp only [NormalElement.Clear] at he'
      obtain ⟨r, hr⟩ := hdisplay sig'.shape l
      simp only [hmethod, hr] at h
      exact absurd h.symm (NormalElement.method_ne_embed he'.1 he hk)
    | embed type' =>
      obtain ⟨hne, hclear⟩ := NormalElement.clear_terms he
      obtain ⟨hne', hclear'⟩ := NormalElement.clear_terms he'
      have hbar : ∀ k, EndsMember k → ¬" | ".toList <+: k := by
        rintro _ hk ⟨t, rfl⟩
        simp [EndsMember] at hk
      simp only [NormalElement.text, text_eq_terms, String.toList_intercalate,
        map_map, Function.comp_def] at h
      obtain ⟨hterms, hkl⟩ := forall₂_of_intercalate (E := fun k => endsText k = true) hne hne'
        (fun t ht t' ht' => NormalTerm.tellsApart (hclear t ht) (hclear' t' ht') (hreads t ht))
        (fun r => rfl) hk.endsText hl.endsText (hbar k hk) (hbar l hl) h
      exact ⟨by simpa [NormalElement.Same] using NormalElement.same_of_terms he he' hterms, hkl⟩

/-- The tag of a field as it stands behind its type. -/
def tagText (tag : Option String) : List Char :=
  tag.elim [] fun t => ' ' :: t.toList

theorem NormalField.toList_text (f : NormalField) :
    f.text.toList = (f.name.elim [] fun n => n.toList ++ [' ']) ++ f.type.text.toList
      ++ tagText f.tag := by
  obtain ⟨name, type, tag⟩ := f
  cases name <;> cases tag <;> simp [NormalField.text, tagText]

theorem endsText_tagText {tag : Option String} (htag : ∀ t ∈ tag, IsTag t) (hk : EndsMember k) :
    endsText (tagText tag ++ k) = true := by
  cases tag with
  | none => exact hk.endsText
  | some t =>
    obtain ⟨c, u, heq, hc⟩ := (htag t rfl).toList
    simp only [tagText, Option.elim, heq, cons_append, endsText]
    rcases hc with rfl | rfl <;> rfl

theorem eq_of_tagText {tag tag' : Option String} (htag : ∀ t ∈ tag, IsTag t)
    (htag' : ∀ t ∈ tag', IsTag t) (hk : EndsMember k) (hl : EndsMember l)
    (h : tagText tag ++ k = tagText tag' ++ l) : tag = tag' ∧ k = l := by
  cases tag with
  | none =>
    cases tag' with
    | none => exact ⟨rfl, h⟩
    | some t' =>
      simp only [tagText, Option.elim, nil_append, cons_append] at h
      simp [EndsMember, h] at hk
  | some t =>
    cases tag' with
    | none =>
      simp only [tagText, Option.elim, nil_append, cons_append] at h
      simp [EndsMember, ← h] at hl
    | some t' =>
      simp only [tagText, Option.elim, cons_append, List.cons.injEq, true_and] at h
      obtain ⟨rfl, hkl⟩ := (htag t rfl).eq_of_append (htag' t' rfl) h
      exact ⟨rfl, hkl⟩

theorem NormalType.ne_named_field (hn : n.Clear) (hm : m.Clear) (hname : isIdentifier name = true)
    (hk : endsText k = true) : n.text.toList ++ k ≠ name.toList ++ ' ' :: (m.text.toList ++ r) := by
  intro heq
  have hspace : ∀ r, (' ' :: r).head?.any isPathChar = false := by
    intro r
    simpa using isPathChar_mark ' ' (by simp)
  have hall := all_isPathChar_of_isIdentifier hname
  have hne : name.toList ≠ [] := by
    obtain ⟨c, u, hchars, -⟩ := isIdentifier_iff.1 hname
    simp [hchars]
  have hsort := leadSort_text hn hk
  rw [heq, leadSort_append hall (hspace _), sortOf_name hne (isIdentifier_notMem hname)] at hsort
  cases n with
  | named package name' =>
    obtain ⟨-, rfl⟩ := eq_of_append_path (named_text hn).1 hall (head?_of_endsText hk) (hspace _) heq
    rw [endsText_space hm] at hk
    cases hk
  | union terms => simp [Clear] at hn
  | _ => cases hsort

theorem NormalField.tellsApart {f f' : NormalField} (hf : f.Clear) (hf' : f'.Clear)
    (hreads : f.type.Reads) :
    TellsApart (fun f : NormalField => f.text.toList) EndsMember NormalField.Same f f' := by
  obtain ⟨hname, htype, htag⟩ := NormalField.clear_iff.1 hf
  obtain ⟨hname', htype', htag'⟩ := NormalField.clear_iff.1 hf'
  obtain ⟨name, type, tag⟩ := f
  obtain ⟨name', type', tag'⟩ := f'
  intro k l hk hl h
  have hends := endsText_tagText htag hk
  have hends' := endsText_tagText htag' hl
  -- behind the names the types and the tags are told apart
  have hrest : type.text.toList ++ (tagText tag ++ k) = type'.text.toList ++ (tagText tag' ++ l) →
      type.Same type' ∧ tag = tag' ∧ k = l := by
    intro hrest
    obtain ⟨hsame, htail⟩ := hreads htype type' htype' _ _ hends hends' hrest
    exact ⟨hsame, eq_of_tagText htag htag' hk hl htail⟩
  simp only [NormalField.toList_text, append_assoc] at h
  cases name with
  | none =>
    cases name' with
    | none =>
      obtain ⟨hsame, rfl, hkl⟩ := hrest (by simpa using h)
      exact ⟨by simpa [NormalField.Same] using hsame, hkl⟩
    | some n' =>
      simp only [Option.elim, nil_append, append_assoc, cons_append] at h
      exact absurd h (ne_named_field htype htype' (hname' n' rfl) hends)
  | some n =>
    cases name' with
    | none =>
      simp only [Option.elim, nil_append, append_assoc, cons_append] at h
      exact absurd h.symm (ne_named_field htype' htype (hname n rfl) hends')
    | some n' =>
      simp only [Option.elim, nil_append, append_assoc, cons_append] at h
      have hspace : ∀ r, (' ' :: r).head?.any isPathChar = false := by
        intro r
        simpa using isPathChar_mark ' ' (by simp)
      obtain ⟨heq, htail⟩ := eq_of_append_path (all_isPathChar_of_isIdentifier (hname n rfl))
        (all_isPathChar_of_isIdentifier (hname' n' rfl)) (hspace _) (hspace _) h
      obtain rfl := String.toList_inj.1 heq
      obtain ⟨hsame, rfl, hkl⟩ := hrest (List.cons.inj htail).2
      exact ⟨by simpa [NormalField.Same] using hsame, hkl⟩

/-! ### Types -/

/-- Names behind import paths can be told apart. -/
theorem NormalType.named_inj {package package' : Option String} {name' : String}
    (h : (named package name).Clear) (h' : (named package' name').Clear)
    (heq : (named package name).text = (named package' name').text) :
    package = package' ∧ name = name' := by
  simp only [Clear] at h h'
  have hpoint := point_notMem_of_isIdentifier h.1
  have hpoint' := point_notMem_of_isIdentifier h'.1
  have heq := congrArg String.toList heq
  -- the last point divides the path from the name
  cases package with
  | none =>
    cases package' with
    | none =>
      simp only [text] at heq
      exact ⟨rfl, String.toList_inj.1 heq⟩
    | some path' =>
      simp only [text, String.toList_append] at heq
      exact absurd (by simp [heq]) hpoint
  | some path =>
    cases package' with
    | none =>
      simp only [text, String.toList_append] at heq
      exact absurd (by simp [← heq]) hpoint'
    | some path' =>
      have htext : ∀ p n : String, (named (some p) n).text.toList
          = p.toList ++ '.' :: n.toList := by
        intro p n
        simp [text]
      rw [htext, htext] at heq
      obtain ⟨rfl, rfl⟩ := eq_of_pointed h.1 h'.1 heq
      exact ⟨rfl, rfl⟩

/-- Between the brackets of an array or a slice and behind them. -/
theorem NormalType.bracket_inj {len len' : String} {elem elem' : NormalType}
    (hlen : IsBracketed len) (hlen' : IsBracketed len') (helem : elem.Clear) (helem' : elem'.Clear)
    (hreads : elem.Reads) (hk : endsText k = true) (hl : endsText l = true)
    (h : '[' :: (len.toList ++ ']' :: (elem.text.toList ++ k))
      = '[' :: (len'.toList ++ ']' :: (elem'.text.toList ++ l))) :
    len = len' ∧ elem.Same elem' ∧ k = l := by
  obtain ⟨rfl, hrest⟩ := hlen.eq_of_append hlen' (List.cons.inj h).2
  exact ⟨rfl, hreads helem elem' helem' k l hk hl hrest⟩

theorem not_isLength_empty : ¬IsLength "" := by
  rintro ⟨hkinds, -⟩
  exact hkinds (by decide +kernel)

/-- The sorted texts of elements are the texts of the elements in some order. -/
theorem exists_perm_mergeSort (es : List NormalElement) :
    ∃ es', es.Perm es' ∧ (elementTexts es).mergeSort (· ≤ ·) = es'.map NormalElement.text := by
  have htexts : List.Forall₂ (fun text e => text = NormalElement.text e) (elementTexts es) es := by
    rw [elementTexts_eq, forall₂_map_left_iff]
    exact forall₂_same.2 fun _ _ => rfl
  obtain ⟨es', hmap, hperm⟩ := perm_comp_forall₂ (mergeSort_perm _ (· ≤ ·)) htexts
  refine ⟨es', hperm.symm, ?_⟩
  rw [← forall₂_eq_eq_eq, forall₂_map_right_iff]
  exact hmap

/-- No element of an interface starts with a closing brace. -/
theorem NormalElement.head?_ne {e : NormalElement} (he : e.Clear) (r : List Char) :
    (e.text.toList ++ r).head? ≠ some '\x7d' := by
  cases e with
  | method name sig =>
    simp only [NormalElement.Clear] at he
    obtain ⟨c, u, hchars, hc, -⟩ := isIdentifier_iff.1 he.1
    simp only [NormalElement.text, String.toList_append, hchars, cons_append, head?_cons]
    rintro ⟨⟩
    exact absurd hc (by decide)
  | embed type =>
    obtain ⟨hne, hclear⟩ := NormalElement.clear_terms he
    obtain ⟨⟨tilde, first⟩, ts, hterms⟩ := exists_cons_of_ne_nil hne
    have hfirst : first.Clear := NormalTerm.clear_iff.1 (hclear ⟨tilde, first⟩ (by simp [hterms]))
    have hterm : ∀ r, ((NormalTerm.text ⟨tilde, first⟩).toList ++ r).head? ≠ some '\x7d' := by
      intro r
      cases tilde with
      | true => simp [NormalTerm.text]
      | false =>
        simpa [NormalTerm.text] using NormalType.head?_ne hfirst r (opensType_mark _ (by simp))
    simp only [NormalElement.text, type.text_eq_terms, hterms]
    cases ts with
    | nil => simpa using hterm r
    | cons t ts =>
      simp only [map_cons, String.intercalate_cons_cons, String.toList_append,
        append_assoc]
      exact hterm _

/-- No field starts with a closing brace. -/
theorem NormalField.head?_ne {f : NormalField} (hf : f.Clear) (r : List Char) :
    (f.text.toList ++ r).head? ≠ some '\x7d' := by
  obtain ⟨hname, htype, -⟩ := NormalField.clear_iff.1 hf
  rw [NormalField.toList_text]
  cases hn : f.name with
  | none => simpa using NormalType.head?_ne htype (tagText f.tag ++ r) (opensType_mark _ (by simp))
  | some n =>
    obtain ⟨c, u, hchars, hc, -⟩ := isIdentifier_iff.1 (hname n hn)
    simp only [Option.elim, hchars, cons_append, head?_cons]
    rintro ⟨⟩
    exact absurd hc (by decide)

/-- Every type can be read back from its text. -/
theorem NormalType.reads (n : NormalType) : n.Reads := by
  induction n using partsInduction with
    (intro hn m hm k l hk hl h; have hsort := sort_eq hn hm hk hl h)
  | named package name =>
    cases m with
    | named package' name' =>
      obtain ⟨htext, hkl⟩ := eq_of_append_path (named_text hn).1 (named_text hm).1
        (head?_of_endsText hk) (head?_of_endsText hl) h
      exact ⟨by simpa [Same] using named_inj hn hm (String.toList_inj.1 htext), hkl⟩
    | union terms => simp [Clear] at hm
    | _ => cases hsort
  | generic base args _ ihargs =>
    cases m with
    | generic base' args' =>
      simp only [Clear] at hn hm
      obtain ⟨hnamed, hbase, -, hargs⟩ := hn
      obtain ⟨hnamed', hbase', -, hargs'⟩ := hm
      cases base with
      | named package name =>
        cases base' with
        | named package' name' =>
          -- the base is the word before the bracket
          have hbracket : ∀ r, ('[' :: r).head?.any isPathChar = false := by
            intro r
            simpa using isPathChar_mark '[' (by simp)
          simp only [toList_generic, append_assoc, cons_append,
            nil_append] at h
          obtain ⟨htext, hrest⟩ := eq_of_append_path (named_text hbase).1 (named_text hbase').1
            (hbracket _) (hbracket _) h
          have hname := named_inj hbase hbase' (String.toList_inj.1 htext)
          have hclose : opensType ']' = false := opensType_mark _ (by simp)
          obtain ⟨hsame, hkl⟩ := forall₂_of_closed
            (fun t ht t' ht' => ihargs t ht (hargs t ht) t' (hargs' t' ht')) (fun r => rfl)
            (fun r => rfl) (by decide) (by decide) (fun t ht r => head?_ne (hargs t ht) r hclose)
            (fun t ht r => head?_ne (hargs' t ht) r hclose) (List.cons.inj hrest).2
          exact ⟨by simpa [Same, sameNormals_iff] using ⟨hname, hsame⟩, hkl⟩
        | _ => cases hnamed'
      | _ => cases hnamed
    | union terms => simp [Clear] at hm
    | _ => cases hsort
  | pointer elem ih =>
    cases m with
    | pointer elem' =>
      simp only [Clear] at hn hm
      simp only [text, String.toList_append, append_assoc] at h
      simpa [Same] using ih hn elem' hm k l hk hl (append_cancel_left h)
    | _ => cases hsort
  | slice elem ih =>
    cases m with
    | slice elem' =>
      simp only [Clear] at hn hm
      simp only [text, String.toList_append, append_assoc] at h
      simpa [Same] using ih hn elem' hm k l hk hl (append_cancel_left h)
    | array len' elem' =>
      simp only [Clear] at hn hm
      have h' : '[' :: ("".toList ++ ']' :: (elem.text.toList ++ k))
          = '[' :: (len'.toList ++ ']' :: (elem'.text.toList ++ l)) := by
        simpa [text] using h
      obtain ⟨rfl, -⟩ := bracket_inj isBracketed_empty hm.1.isBracketed hn hm.2 ih hk hl h'
      exact absurd hm.1 not_isLength_empty
    | _ => cases hsort
  | array len elem ih =>
    cases m with
    | slice elem' =>
      simp only [Clear] at hn hm
      have h' : '[' :: (len.toList ++ ']' :: (elem.text.toList ++ k))
          = '[' :: ("".toList ++ ']' :: (elem'.text.toList ++ l)) := by
        simpa [text] using h
      obtain ⟨rfl, -⟩ := bracket_inj hn.1.isBracketed isBracketed_empty hn.2 hm ih hk hl h'
      exact absurd hn.1 not_isLength_empty
    | array len' elem' =>
      simp only [Clear] at hn hm
      have h' : '[' :: (len.toList ++ ']' :: (elem.text.toList ++ k))
          = '[' :: (len'.toList ++ ']' :: (elem'.text.toList ++ l)) := by
        simpa [text] using h
      obtain ⟨rfl, hsame, hkl⟩ := bracket_inj hn.1.isBracketed hm.1.isBracketed hn.2 hm.2
        ih hk hl h'
      exact ⟨by simpa [Same] using hsame, hkl⟩
    | _ => cases hsort
  | map key value ihkey ihvalue =>
    cases m with
    | map key' value' =>
      simp only [Clear] at hn hm
      simp only [text, String.toList_append, append_assoc] at h
      obtain ⟨hkey, hrest⟩ := ihkey hn.1 key' hm.1 _ _ rfl rfl (append_cancel_left h)
      obtain ⟨hvalue, hkl⟩ := ihvalue hn.2 value' hm.2 k l hk hl (append_cancel_left hrest)
      exact ⟨by simpa [Same] using ⟨hkey, hvalue⟩, hkl⟩
    | _ => cases hsort
  | chan dir elem ih =>
    cases m with
    | chan dir' elem' =>
      obtain rfl : dir' = dir := by simpa [sort] using hsort
      simp only [Clear] at hn hm
      simp only [text, String.toList_append, append_assoc] at h
      simpa [Same] using ih hn elem' hm k l hk hl (append_cancel_left h)
    | _ => cases hsort
  | func sig ih =>
    cases m with
    | func sig' =>
      simp only [Clear] at hn hm
      simp only [text, String.toList_append, append_assoc] at h
      simpa [Same] using NormalSignature.same_of_display hn hm ih hk hl
        (append_cancel_left h)
    | _ => cases hsort
  | interface elems ih =>
    cases m with
    | interface elems' =>
      simp only [Clear] at hn hm
      obtain ⟨es, hperm, htexts⟩ := exists_perm_mergeSort elems
      obtain ⟨es', hperm', htexts'⟩ := exists_perm_mergeSort elems'
      have hes : ∀ e ∈ es, e.Clear := fun e he => hn e (hperm.mem_iff.2 he)
      have hes' : ∀ e ∈ es', e.Clear := fun e he => hm e (hperm'.mem_iff.2 he)
      have h' : "; ".toList.intercalate (es.map fun e => e.text.toList) ++ '\x7d' :: k
          = "; ".toList.intercalate (es'.map fun e => e.text.toList) ++ '\x7d' :: l := by
        simpa [text, htexts, htexts', Function.comp_def] using h
      obtain ⟨hsame, hkl⟩ := forall₂_of_closed (E := EndsMember)
        (fun e he e' he' => NormalElement.tellsApart (hes e he) (hes' e' he')
          (ih e (hperm.mem_iff.2 he)))
        (fun r => .inl rfl) (fun r => .inr rfl) (by decide) (by decide)
        (fun e he => NormalElement.head?_ne (hes e he))
        (fun e he => NormalElement.head?_ne (hes' e he)) h'
      refine ⟨?_, hkl⟩
      simp only [Same, sameNormalElements_iff]
      -- the order of the one side is carried over to the other
      obtain ⟨es'', hsame', hperm''⟩ := perm_comp_forall₂ hperm hsame
      exact ⟨es'', hperm'.trans hperm''.symm, hsame'⟩
    | _ => cases hsort
  | struct fields ih =>
    cases m with
    | struct fields' =>
      simp only [Clear] at hn hm
      have h' : "; ".toList.intercalate (fields.map fun f => f.text.toList) ++ '\x7d' :: k
          = "; ".toList.intercalate (fields'.map fun f => f.text.toList) ++ '\x7d' :: l := by
        simpa [text, fieldTexts_eq, Function.comp_def] using h
      obtain ⟨hsame, hkl⟩ := forall₂_of_closed (E := EndsMember)
        (fun f hf f' hf' => NormalField.tellsApart (hn f hf) (hm f' hf') (ih f hf))
        (fun r => .inl rfl) (fun r => .inr rfl) (by decide) (by decide)
        (fun f hf => NormalField.head?_ne (hn f hf)) (fun f hf => NormalField.head?_ne (hm f hf)) h'
      exact ⟨by simpa [Same, sameNormalFields_iff] using hsame, hkl⟩
    | _ => cases hsort
  | union terms => simp [Clear] at hn

/-- The text of a type identifies it. -/
theorem NormalType.text_eq_iff (hn : n.Clear) (hm : m.Clear) : n.text = m.text ↔ n.Same m := by
  constructor
  · intro h
    exact (n.reads hn m hm [] [] rfl rfl (by simp only [h])).1
  · exact n.sameText m

theorem NormalSignature.each_of_forall {P : NormalType → Prop} (h : ∀ n, P n) (s : NormalSignature) :
    s.Each P :=
  ⟨fun t _ => h t, fun t _ => h t⟩

/-- The displayed text of a signature identifies it. -/
theorem NormalSignature.display_eq_iff (hs : s.Clear) (hs' : s'.Clear) :
    s.shape.display = s'.shape.display ↔ s.shape = s'.shape := by
  constructor
  · intro h
    exact NormalSignature.shape_eq (each_of_forall sameText s)
      (NormalSignature.same_of_display hs hs' (each_of_forall reads s)
        (k := []) (l := []) rfl rfl (by rw [h])).1
  · exact congrArg MethodShape.display

end Stubwright
