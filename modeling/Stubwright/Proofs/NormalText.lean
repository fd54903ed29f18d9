import Stubwright.Proofs.NormalForm
import Stubwright.Proofs.Spelling

/-!
# Texts of normal forms

How the text of a type in normal form starts and where it ends.

* `NormalType.leadSort_text`: the text of a type starts as its form says.
-/

namespace Stubwright

open List

open NormalType

variable {k w r l : List Char} {c : Char} {name len : String} {n : NormalType} {rest : List Char}
  {len' : String}

/-! ## What stands behind a type -/

/-- Whether a text can stand behind the text of a type: it is empty or starts with a separator or a
closing mark. -/
def endsText : List Char → Bool
  | [] => true
  | ' ' :: d :: _ => d = '|' || d = '\x22' || d = '\x60'
  | c :: _ => c = ',' || c = ')' || c = ']' || c = ';' || c = '\x7d'

/-- The characters that separate, open or close something are no characters of import paths. -/
theorem isPathChar_mark :
    ∀ c ∈ [' ', ',', ')', ']', ';', '\x7d', '|', '\x22', '\x60', '(', '[', '*', '<', '~', '\x7b'],
      isPathChar c = false := by
  simp only [forall_mem_cons, not_mem_nil, false_implies, implies_true]
  decide

theorem head?_of_endsText (hk : endsText k = true) : k.head?.any isPathChar = false := by
  cases k with
  | nil => rfl
  | cons c k =>
    have hmem : c ∈ [' ', ',', ')', ']', ';', '\x7d'] := by
      unfold endsText at hk
      split at hk
      · simp_all
      · simp_all
      · simp_all
        rcases hk with (((rfl|rfl)|rfl)|rfl)|rfl <;> simp
    simp [isPathChar_mark c (by simp at hmem ⊢; tauto)]

/-- A word of path characters is read off where other characters follow. -/
theorem takeWhile_path (hw : w.all isPathChar = true) (hr : r.head?.any isPathChar = false) :
    (w ++ r).takeWhile isPathChar = w ∧ (w ++ r).dropWhile isPathChar = r := by
  have htake := Lexeme.takeWhile_append_of_all hw hr
  refine ⟨htake, ?_⟩
  have hsplit := takeWhile_append_dropWhile (p := isPathChar) (l := w ++ r)
  rw [htake] at hsplit
  exact append_cancel_left hsplit

/-- Two words of path characters are the same where the texts that start with them are. -/
theorem eq_of_append_path {w' r' : List Char} (hw : w.all isPathChar = true)
    (hw' : w'.all isPathChar = true) (hr : r.head?.any isPathChar = false)
    (hr' : r'.head?.any isPathChar = false) (h : w ++ r = w' ++ r') : w = w' ∧ r = r' := by
  obtain ⟨htake, hdrop⟩ := takeWhile_path hw hr
  obtain ⟨htake', hdrop'⟩ := takeWhile_path hw' hr'
  rw [h] at htake hdrop
  exact ⟨htake.symm.trans htake', hdrop.symm.trans hdrop'⟩

theorem isPathChar_of_continuesIdent (h : Lexeme.continuesIdent c = true) :
    isPathChar c = true := by
  simp [isPathChar, h]

theorem continuesIdent_of_startsIdent (h : Lexeme.startsIdent c = true) :
    Lexeme.continuesIdent c = true := by
  unfold Lexeme.startsIdent at h
  unfold Lexeme.continuesIdent
  rw [h]
  rfl

theorem isIdentifier_iff : isIdentifier name = true ↔
    ∃ c u, name.toList = c :: u ∧ Lexeme.startsIdent c = true ∧
      (c :: u).all Lexeme.continuesIdent = true ∧ Lexeme.wordKind (c :: u) = .ident := by
  unfold isIdentifier
  split
  · simp_all
  · rename_i c u heq
    simp only [heq, Bool.and_eq_true, beq_iff_eq, List.cons.injEq, all_cons]
    constructor
    · rintro ⟨⟨hc, hu⟩, hkind⟩
      exact ⟨c, u, ⟨rfl, rfl⟩, hc, ⟨continuesIdent_of_startsIdent hc, hu⟩, hkind⟩
    · rintro ⟨_, _, ⟨rfl, rfl⟩, hc, ⟨_, hu⟩, hkind⟩
      exact ⟨⟨hc, hu⟩, hkind⟩

theorem all_isPathChar_of_isIdentifier (h : isIdentifier name = true) :
    name.toList.all isPathChar = true := by
  obtain ⟨c, u, heq, -, hall, -⟩ := isIdentifier_iff.1 h
  rw [heq]
  rw [all_eq_true] at hall ⊢
  exact fun d hd => isPathChar_of_continuesIdent (hall d hd)

theorem point_notMem_of_isIdentifier (h : isIdentifier name = true) : '.' ∉ name.toList := by
  obtain ⟨c, u, heq, -, hall, -⟩ := isIdentifier_iff.1 h
  intro hmem
  rw [heq] at hmem
  have := all_eq_true.1 hall _ hmem
  revert this
  decide

theorem eq_of_pointed {path path' name' : String} (h : isIdentifier name = true)
    (h' : isIdentifier name' = true)
    (heq : path.toList ++ '.' :: name.toList = path'.toList ++ '.' :: name'.toList) :
    path = path' ∧ name = name' := by
  have hpoint := point_notMem_of_isIdentifier h
  have hpoint' := point_notMem_of_isIdentifier h'
  rcases append_eq_append_iff.1 heq with ⟨mid, hpath, hmid⟩ | ⟨mid, hpath, hmid⟩
  · cases mid with
    | nil =>
      simp at hpath hmid
      exact ⟨String.toList_inj.1 hpath.symm, String.toList_inj.1 hmid⟩
    | cons c mid =>
      rw [(List.cons.inj hmid).2] at hpoint
      obtain rfl := (List.cons.inj hmid).1
      exact absurd (mem_append_right _ mem_cons_self) hpoint
  · cases mid with
    | nil =>
      simp at hpath hmid
      exact ⟨String.toList_inj.1 hpath, String.toList_inj.1 hmid.symm⟩
    | cons c mid =>
      rw [(List.cons.inj hmid).2] at hpoint'
      obtain rfl := (List.cons.inj hmid).1
      exact absurd (mem_append_right _ mem_cons_self) hpoint'

/-! ## Leading words -/

/-- How the text of a type starts. -/
inductive TypeSort where
  | named
  | generic
  | pointer
  | bracket
  | map
  | chan (dir : ChanDir)
  | func
  | interface
  | struct
deriving DecidableEq

/-- How the text of a type in normal form starts; a union starts as its terms do. -/
def NormalType.sort : NormalType → TypeSort
  | .named .. => .named
  | .generic .. => .generic
  | .pointer _ => .pointer
  | .slice _ => .bracket
  | .array .. => .bracket
  | .map .. => .map
  | .chan dir _ => .chan dir
  | .func _ => .func
  | .interface _ => .interface
  | .struct _ => .struct
  | .union _ => .named

/-- The words that types start with and that are no names. -/
def typeWords : List (List Char × TypeSort) :=
  [("map".toList, .map), ("func".toList, .func), ("interface".toList, .interface),
    ("struct".toList, .struct)]

/-- How a text starts, by its leading word and what follows. -/
def sortOf (word : List Char) (next : Option Char) : TypeSort :=
  match typeWords.lookup word with
  | some sort => sort
  | none =>
    if word = "chan".toList then .chan (if next = some '<' then .send else .both)
    else if word = [] then
      if next = some '*' then .pointer else if next = some '[' then .bracket else .chan .recv
    else if next = some '[' then .generic else .named

/-- How a text starts. -/
def leadSort (text : List Char) : TypeSort :=
  sortOf (text.takeWhile isPathChar) (text.dropWhile isPathChar).head?

theorem leadSort_append (hw : w.all isPathChar = true) (hr : r.head?.any isPathChar = false) :
    leadSort (w ++ r) = sortOf w r.head? := by
  obtain ⟨htake, hdrop⟩ := takeWhile_path hw hr
  rw [leadSort, htake, hdrop]

/-- The name of a type is no word that another type starts with. -/
theorem sortOf_name {next : Option Char} (hne : w ≠ [])
    (hw : w ∉ ["map".toList, "func".toList, "interface".toList, "struct".toList, "chan".toList]) :
    sortOf w next = if next = some '[' then .generic else .named := by
  simp only [mem_cons, not_mem_nil, or_false, not_or] at hw
  obtain ⟨hmap, hfunc, hinterface, hstruct, hchan⟩ := hw
  have hlookup : typeWords.lookup w = none := by
    simp only [typeWords, List.lookup, beq_eq_false_iff_ne.2 hmap, beq_eq_false_iff_ne.2 hfunc,
      beq_eq_false_iff_ne.2 hinterface, beq_eq_false_iff_ne.2 hstruct]
  rw [sortOf, hlookup]
  simp only [if_neg hchan, if_neg hne]

theorem isIdentifier_notMem (h : isIdentifier name = true) : name.toList ∉
    ["map".toList, "func".toList, "interface".toList, "struct".toList, "chan".toList] := by
  obtain ⟨c, u, heq, -, -, hkind⟩ := isIdentifier_iff.1 h
  have hwords : ∀ w ∈ ["map".toList, "func".toList, "interface".toList, "struct".toList,
      "chan".toList], Lexeme.wordKind w ≠ .ident := by decide
  intro hmem
  rw [heq] at hmem
  exact hwords _ hmem hkind

theorem NormalType.toList_generic (base : NormalType) (args : List NormalType) :
    (generic base args).text.toList = base.text.toList
      ++ '[' :: (", ".toList.intercalate (args.map fun a => a.text.toList) ++ [']']) := by
  rw [text, normalTexts_eq]
  simp [Function.comp_def]

theorem NormalType.named_text {package : Option String} (h : (named package name).Clear) :
    (named package name).text.toList.all isPathChar = true ∧
      (named package name).text.toList ≠ [] ∧
      (named package name).text.toList ∉
        ["map".toList, "func".toList, "interface".toList, "struct".toList, "chan".toList] := by
  simp only [Clear] at h
  obtain ⟨hname, hpath⟩ := h
  have hall := all_isPathChar_of_isIdentifier hname
  cases package with
  | none =>
    refine ⟨hall, ?_, isIdentifier_notMem hname⟩
    obtain ⟨c, u, heq, -⟩ := isIdentifier_iff.1 hname
    simp [text, heq]
  | some path =>
    have hplain := hpath path rfl
    simp only [isPlainPath, Bool.and_eq_true] at hplain
    have htext : (named (some path) name).text.toList
        = path.toList ++ '.' :: name.toList := by
      simp [text]
    rw [htext]
    refine ⟨?_, by simp, ?_⟩
    · rw [all_append, all_cons, hplain.1, hall]
      decide
    · -- no such word has a point
      intro hmem
      have hpoint : ∀ w ∈ ["map".toList, "func".toList, "interface".toList, "struct".toList,
          "chan".toList], '.' ∉ w := by decide
      exact hpoint _ hmem (by simp)

/-- How a text starts that is given by its leading word. -/
theorem leadSort_of_eq {s : List Char} {w : String} (h : s = w.toList ++ c :: r)
    (hw : w ∈ ["", "map", "chan", "func", "interface", "struct"])
    (hc : c ∈ [' ', '(', '[', '*', '<', '\x7b']) : leadSort s = sortOf w.toList (some c) := by
  have hwords : ∀ w ∈ ["", "map", "chan", "func", "interface", "struct"],
      w.toList.all isPathChar = true := by decide
  have hmarks : ∀ c ∈ [' ', '(', '[', '*', '<', '\x7b'], isPathChar c = false := by
    simp only [forall_mem_cons, not_mem_nil, false_implies, implies_true]
    decide
  rw [h]
  exact leadSort_append (hwords w hw) (by simpa using hmarks c hc)

/-- The text of a type starts as its form says. -/
theorem NormalType.leadSort_text (hn : n.Clear) (hk : endsText k = true) :
    leadSort (n.text.toList ++ k) = n.sort := by
  cases n with
  | named package name =>
    obtain ⟨hall, hne, hnot⟩ := named_text hn
    have hnext : k.head? ≠ some '[' := by
      cases k with
      | nil => simp
      | cons c k =>
        rintro ⟨⟩
        simp [endsText] at hk
    rw [leadSort_append hall (head?_of_endsText hk), sortOf_name hne hnot, if_neg hnext]
    rfl
  | generic base args =>
    simp only [Clear] at hn
    obtain ⟨hnamed, hbase, -, -⟩ := hn
    cases base with
    | named package name =>
      obtain ⟨hall, hne, hnot⟩ := named_text hbase
      have hbracket : ∀ r, ('[' :: r).head?.any isPathChar = false := by
        intro r
        simpa using isPathChar_mark '[' (by simp)
      rw [toList_generic, append_assoc, cons_append,
        leadSort_append hall (hbracket _), sortOf_name hne hnot]
      rfl
    | _ => cases hnamed
  | pointer elem =>
    exact leadSort_of_eq (w := "") (c := '*') (by simp [text]; rfl) (by simp) (by simp)
  | slice elem | array len elem =>
    exact leadSort_of_eq (w := "") (c := '[') (by simp [text]; rfl) (by simp) (by simp)
  | map key value =>
    exact leadSort_of_eq (w := "map") (c := '[') (by simp [text]; rfl) (by simp)
      (by simp)
  | chan dir elem =>
    cases dir with
    | both =>
      exact leadSort_of_eq (w := "chan") (c := ' ') (by simp [text, ChanDir.keyword]; rfl)
        (by simp) (by simp)
    | send =>
      exact leadSort_of_eq (w := "chan") (c := '<') (by simp [text, ChanDir.keyword]; rfl)
        (by simp) (by simp)
    | recv =>
      exact leadSort_of_eq (w := "") (c := '<') (by simp [text, ChanDir.keyword]; rfl)
        (by simp) (by simp)
  | func sig =>
    exact leadSort_of_eq (w := "func") (c := '(')
      (by simp [text, MethodShape.display]; rfl) (by simp) (by simp)
  | interface elems =>
    exact leadSort_of_eq (w := "interface") (c := '\x7b') (by simp [text]; rfl) (by simp)
      (by simp)
  | struct fields =>
    exact leadSort_of_eq (w := "struct") (c := '\x7b') (by simp [text]; rfl) (by simp)
      (by simp)
  | union terms => simp [Clear] at hn

/-- Two texts that start in the same way are texts of types of one form. -/
theorem NormalType.sort_eq {m : NormalType} (hn : n.Clear) (hm : m.Clear) (hk : endsText k = true)
    (hl : endsText l = true) (h : n.text.toList ++ k = m.text.toList ++ l) : m.sort = n.sort := by
  rw [← leadSort_text hn hk, h, leadSort_text hm hl]

def opensType (c : Char) : Bool :=
  isPathChar c || c = '*' || c = '[' || c = '<'

/-- No mark that separates or closes something starts a type. -/
theorem opensType_mark :
    ∀ c ∈ [' ', ',', '(', ')', ']', ';', '\x7d', '|', '\x22', '\x60', '~'],
      opensType c = false := by
  simp only [forall_mem_cons, not_mem_nil, false_implies, implies_true]
  decide

theorem NormalType.exists_head (hn : n.Clear) :
    ∃ c u, n.text.toList = c :: u ∧ opensType c = true := by
  have hletters : ∀ c ∈ ['m', 'c', 'f', 'i', 's', '*', '[', '<'], opensType c = true := by
    simp only [forall_mem_cons, not_mem_nil, false_implies, implies_true]
    decide
  have hnamed : ∀ package name, (named package name).Clear →
      ∃ c u, (named package name).text.toList = c :: u ∧ opensType c = true := by
    intro package name h
    obtain ⟨hall, hne, -⟩ := named_text h
    obtain ⟨c, u, heq⟩ := exists_cons_of_ne_nil hne
    rw [heq, all_cons, Bool.and_eq_true] at hall
    exact ⟨c, u, heq, by simp [opensType, hall.1]⟩
  cases n with
  | named package name => exact hnamed package name hn
  | generic base args =>
    simp only [Clear] at hn
    obtain ⟨hbase, hclear, -, -⟩ := hn
    cases base with
    | named package name =>
      obtain ⟨c, u, heq, hc⟩ := hnamed package name hclear
      exact ⟨c, _, by rw [toList_generic, heq]; rfl, hc⟩
    | _ => cases hbase
  | chan dir elem =>
    cases dir
    · exact ⟨'c', _, by simp [text, ChanDir.keyword]; rfl, hletters _ (by simp)⟩
    · exact ⟨'c', _, by simp [text, ChanDir.keyword]; rfl, hletters _ (by simp)⟩
    · exact ⟨'<', _, by simp [text, ChanDir.keyword]; rfl, hletters _ (by simp)⟩
  | union terms => simp [Clear] at hn
  | pointer elem => exact ⟨'*', _, by simp [text]; rfl, hletters _ (by simp)⟩
  | slice elem | array len elem => exact ⟨'[', _, by simp [text]; rfl, hletters _ (by simp)⟩
  | map key value => exact ⟨'m', _, by simp [text]; rfl, hletters _ (by simp)⟩
  | func sig => exact ⟨'f', _, by simp [text]; rfl, hletters _ (by simp)⟩
  | interface elems => exact ⟨'i', _, by simp [text]; rfl, hletters _ (by simp)⟩
  | struct fields => exact ⟨'s', _, by simp [text]; rfl, hletters _ (by simp)⟩

/-- No type starts with a mark. -/
theorem NormalType.head?_ne (hn : n.Clear) (r : List Char) (hc : opensType c = false) :
    (n.text.toList ++ r).head? ≠ some c := by
  obtain ⟨d, u, heq, hd⟩ := n.exists_head hn
  rw [heq]
  rintro ⟨⟩
  rw [hc] at hd
  cases hd

theorem NormalType.endsText_space (hn : n.Clear) (r : List Char) :
    endsText (' ' :: (n.text.toList ++ r)) = false := by
  obtain ⟨d, u, heq, hd⟩ := n.exists_head hn
  have hno : ∀ c ∈ ['|', '\x22', '\x60'], d ≠ c := by
    rintro c hc rfl
    rw [opensType_mark d (by simp at hc ⊢; tauto)] at hd
    cases hd
  simp only [forall_mem_cons] at hno
  rw [heq, cons_append, endsText]
  simp [hno]

/-! ## Lists of texts -/

section
variable {α : Type} {text : α → List Char} {R : α → α → Prop} {E : List Char → Prop}
  {sep k l : List Char}

/-- Two items can be told apart by their texts, whatever of the kind `E` follows them. -/
def TellsApart (text : α → List Char) (E : List Char → Prop) (R : α → α → Prop) (x y : α) :
    Prop :=
  ∀ k l, E k → E l → text x ++ k = text y ++ l → R x y ∧ k = l

/-- Separated items can be told apart as long as the items can. -/
theorem forall₂_of_intercalate {xs ys : List α} (hxs : xs ≠ []) (hys : ys ≠ [])
    (hitems : ∀ x ∈ xs, ∀ y ∈ ys, TellsApart text E R x y) (hsep : ∀ r, E (sep ++ r))
    (hk : E k) (hl : E l) (hksep : ¬sep <+: k) (hlsep : ¬sep <+: l)
    (h : sep.intercalate (xs.map text) ++ k = sep.intercalate (ys.map text) ++ l) :
    List.Forall₂ R xs ys ∧ k = l := by
  induction xs generalizing ys with
  | nil => exact absurd rfl hxs
  | cons x xs ih =>
    cases ys with
    | nil => exact absurd rfl hys
    | cons y ys =>
      have hxy := hitems x mem_cons_self y mem_cons_self
      cases xs with
      | nil =>
        cases ys with
        | nil =>
          simp only [map_cons, map_nil, intercalate_singleton] at h
          obtain ⟨hR, hkl⟩ := hxy k l hk hl h
          exact ⟨.cons hR .nil, hkl⟩
        | cons y' ys =>
          simp only [map_cons, map_nil, intercalate_singleton,
            intercalate_cons_cons, append_assoc] at h
          obtain ⟨-, rfl⟩ := hxy _ _ hk (hsep _) h
          exact absurd (prefix_append _ _) hksep
      | cons x' xs =>
        cases ys with
        | nil =>
          simp only [map_cons, map_nil, intercalate_singleton,
            intercalate_cons_cons, append_assoc] at h
          obtain ⟨-, rfl⟩ := hxy _ _ (hsep _) hl h
          exact absurd (prefix_append _ _) hlsep
        | cons y' ys =>
          simp only [map_cons, intercalate_cons_cons, append_assoc] at h
          obtain ⟨hR, hrest⟩ := hxy _ _ (hsep _) (hsep _) h
          have htail := ih (cons_ne_nil x' xs) (cons_ne_nil y' ys)
            (fun x hx y hy => hitems x (mem_cons_of_mem _ hx) y (mem_cons_of_mem _ hy))
            (append_cancel_left hrest)
          exact ⟨.cons hR htail.1, htail.2⟩

/-- Separated items before a closing character that no item starts with can be told apart, also
when there are none. -/
theorem forall₂_of_closed {xs ys : List α} {close : Char}
    (hitems : ∀ x ∈ xs, ∀ y ∈ ys, TellsApart text E R x y) (hsep : ∀ r, E (sep ++ r))
    (hclose : ∀ r, E (close :: r)) (hsepclose : sep.head? ≠ some close) (hne : sep ≠ [])
    (hxs : ∀ x ∈ xs, ∀ r, (text x ++ r).head? ≠ some close)
    (hys : ∀ y ∈ ys, ∀ r, (text y ++ r).head? ≠ some close)
    (h : sep.intercalate (xs.map text) ++ close :: k = sep.intercalate (ys.map text) ++ close :: l) :
    List.Forall₂ R xs ys ∧ k = l := by
  have hnot : ∀ r, ¬sep <+: close :: r := by
    rintro r ⟨t, ht⟩
    cases sep with
    | nil => exact hne rfl
    | cons c sep => exact hsepclose (congrArg List.head? ht)
  have hstart : ∀ zs : List α, (∀ z ∈ zs, ∀ r, (text z ++ r).head? ≠ some close) → zs ≠ [] →
      ∀ r, (sep.intercalate (zs.map text) ++ r).head? ≠ some close := by
    intro zs hzs hnil r
    cases zs with
    | nil => exact absurd rfl hnil
    | cons z zs =>
      cases zs with
      | nil => simpa using hzs z mem_cons_self r
      | cons z' zs =>
        simp only [map_cons, intercalate_cons_cons, append_assoc]
        exact hzs z mem_cons_self _
  by_cases hnil : xs = []
  · subst hnil
    by_cases hnil : ys = []
    · subst hnil
      simp at h
      exact ⟨.nil, h⟩
    · have := hstart ys hys hnil (close :: l)
      rw [← h] at this
      simp at this
  · by_cases hnil' : ys = []
    · subst hnil'
      have := hstart xs hxs hnil (close :: k)
      rw [h] at this
      simp at this
    · obtain ⟨hR, hkl⟩ := forall₂_of_intercalate hnil hnil' hitems hsep (hclose k) (hclose l)
        (hnot k) (hnot l) h
      exact ⟨hR, (List.cons.inj hkl).2⟩

end

/-! ## Lengths and tags -/

/-- Behind tokens that are all part of a length, further tokens are taken as if they were the
first. -/
theorem spansLength_append {depth : Nat} {as bs : List TokenKind}
    (h : spansLength depth as = true) : spansLength depth (as ++ bs) = spansLength 0 bs := by
  induction as generalizing depth with
  | nil =>
    simp only [spansLength, beq_iff_eq] at h
    rw [h, nil_append]
  | cons kind as ih =>
    obtain ⟨hclose, hsemi, hrest⟩ := spansLength_cons.1 h
    rw [cons_append, spansLength, ih hrest]
    simp [hsemi, hclose]

/-- The closing bracket behind a length is found by counting brackets. -/
theorem eq_of_spansLength {as bs cs ds : List TokenKind} (ha : spansLength 0 as = true)
    (hb : spansLength 0 bs = true) (h : as ++ .rBrack :: cs = bs ++ .rBrack :: ds) : as = bs := by
  have hnot : ∀ xs ys zs : List TokenKind, spansLength 0 xs = true →
      spansLength 0 (xs ++ ys) = true → ys ++ zs ≠ [] → (ys ++ zs).head? = some .rBrack → ys = [] := by
    intro xs ys zs hxs hys _ hhead
    cases ys with
    | nil => rfl
    | cons y ys =>
      rw [spansLength_append hxs] at hys
      cases hhead
      exact absurd ⟨rfl, rfl⟩ (spansLength_cons.1 hys).1
  rcases append_eq_append_iff.1 h with ⟨mid, rfl, hmid⟩ | ⟨mid, rfl, hmid⟩
  · rw [hnot as mid (.rBrack :: ds) ha hb (by simp) (by rw [← hmid]; rfl), append_nil]
  · rw [hnot bs mid (.rBrack :: cs) hb ha (by simp) (by rw [← hmid]; rfl), append_nil]

/-- A text between brackets: the length of an array, or nothing for a slice. -/
def IsBracketed (len : String) : Prop :=
  spansLength 0 (lengthKinds len) = true ∧ ∃ after, ∀ k,
    Emits len.toList (']' :: k) false after (Form.length len)

theorem IsLength.isBracketed (h : IsLength len) : IsBracketed len := by
  obtain ⟨-, hspans, after, hemits⟩ := h
  exact ⟨hspans, after, fun k => hemits false k⟩

theorem isBracketed_empty : IsBracketed "" := by
  have hkinds : lengthKinds "" = [] := by decide +kernel
  refine ⟨by rw [hkinds]; rfl, false, fun k => ?_⟩
  refine Emits.nil.mono fun ts hts => ?_
  obtain rfl : ts = [] := hts
  exact ⟨hkinds.symm, rfl⟩

/-- The tokens of a length, of the bracket behind it and of what follows. -/
theorem IsBracketed.tokens {all : List Token} (h : IsBracketed len)
    (hall : tokenize (len.toList ++ ']' :: rest) = .ok all) :
    ∃ ts close more, all = ts ++ close :: more ∧ close.kind = .rBrack ∧ Form.length len ts := by
  obtain ⟨-, after, hemits⟩ := h
  have hclose : Emits "]".toList rest after true (Form.one .rBrack) :=
    Emits.solitary "]" (by decide)
  obtain ⟨_, pos, lead, ⟨ts, _, hform, ⟨close, rfl, hkind⟩, rfl⟩, heq⟩ :=
    ((hemits rest).append hclose) 0 []
  rw [tokenize] at hall
  have hsame : len.toList ++ "]".toList ++ rest = len.toList ++ ']' :: rest := by simp
  rw [hsame, hall] at heq
  cases hrest : Lexeme.tokensFrom pos lead true rest with
  | error e =>
    rw [hrest] at heq
    cases heq
  | ok more =>
    rw [hrest] at heq
    refine ⟨ts, close, more, ?_, hkind, hform⟩
    simpa using Except.ok.inj heq

/-- A length alone before its bracket can be cut into tokens. -/
theorem IsBracketed.exists_tokens (h : IsBracketed len) :
    ∃ all, tokenize (len.toList ++ [']']) = .ok all := by
  obtain ⟨-, after, hemits⟩ := h
  have hclose : Emits "]".toList [] after true (Form.one .rBrack) :=
    Emits.mark (by decide) (by decide) (by simp)
  obtain ⟨ts, pos, lead, -, heq⟩ := ((hemits []).append hclose) 0 []
  rw [append_nil, Lexeme.tokensFrom] at heq
  exact ⟨_, heq⟩

/-- A length does not go on behind a closing bracket. -/
theorem IsBracketed.ne_append (h : IsBracketed len)
    (h' : IsBracketed len') : len'.toList ≠ len.toList ++ ']' :: rest := by
  intro heq
  obtain ⟨all, hall⟩ := h'.exists_tokens
  obtain ⟨ts', close', more', hall', hkind', hkinds', htext'⟩ := h'.tokens hall
  rw [heq, append_assoc, cons_append] at hall
  obtain ⟨ts, close, more, rfl, hkind, hkinds, htext⟩ := h.tokens hall
  have hsame : ts.map (·.kind) = ts'.map (·.kind) := by
    have := congrArg (List.map Token.kind) hall'
    simp only [map_append, map_cons, hkind, hkind'] at this
    exact eq_of_spansLength (hkinds ▸ h.1) (hkinds' ▸ h'.1) this
  have hlen : ts.length = ts'.length := by simpa using congrArg List.length hsame
  obtain ⟨rfl, -⟩ := append_inj hall' hlen
  rw [← htext', htext] at heq
  simp at heq

/-- The text between brackets can be told from what follows them. -/
theorem IsBracketed.eq_of_append (h : IsBracketed len) (h' : IsBracketed len')
    (heq : len.toList ++ ']' :: k = len'.toList ++ ']' :: l) : len = len' ∧ k = l := by
  rcases append_eq_append_iff.1 heq with ⟨mid, hlen, hmid⟩ | ⟨mid, hlen, hmid⟩
  · cases mid with
    | nil => exact ⟨String.toList_inj.1 (by simpa using hlen.symm), by simpa using hmid⟩
    | cons c mid =>
      obtain rfl : ']' = c := (List.cons.inj hmid).1
      exact absurd hlen (h.ne_append h')
  · cases mid with
    | nil => exact ⟨String.toList_inj.1 (by simpa using hlen), by simpa using hmid.symm⟩
    | cons c mid =>
      obtain rfl : ']' = c := (List.cons.inj hmid).1
      exact absurd hlen (h'.ne_append h)

/-- A tag can be told from what follows it. -/
theorem IsTag.eq_of_append {tag tag' : String} (h : IsTag tag) (h' : IsTag tag')
    (heq : tag.toList ++ k = tag'.toList ++ l) : tag = tag' ∧ k = l := by
  obtain ⟨kind, c, u, -, rfl, hscan⟩ := h
  obtain ⟨kind', c', u', -, rfl, hscan'⟩ := h'
  simp only [String.toList_ofList, cons_append, List.cons.injEq] at heq
  obtain ⟨rfl, heq⟩ := heq
  have hlen := (hscan k).symm.trans (heq ▸ hscan' l)
  simp only [Except.ok.injEq, Prod.mk.injEq] at hlen
  obtain ⟨rfl, rfl⟩ := append_inj heq hlen.2
  exact ⟨rfl, rfl⟩

/-- A tag starts with a quotation mark. -/
theorem IsTag.toList {tag : String} (h : IsTag tag) :
    ∃ c u, tag.toList = c :: u ∧ (c = '\x22' ∨ c = '\x60') := by
  obtain ⟨kind, c, u, hkind, rfl, hscan⟩ := h
  refine ⟨c, u, String.toList_ofList, ?_⟩
  rcases Lexeme.literal_of_scan (hscan []) hkind with ⟨-, hc, -⟩ | ⟨-, hc, -⟩
  · exact .inl hc
  · exact .inr hc

end Stubwright
