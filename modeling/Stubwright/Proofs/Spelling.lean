import Stubwright.Proofs.Lexing
import Stubwright.Proofs.References
import Stubwright.TypeExpr.Print

/-!
# How a type is spelled

The tokens of a printed type, and which types can be printed so that their tokens are what they
should be.

* `TypeExpr.emitsSpelled`: the print of a formed type gives its tokens.
-/

namespace Stubwright

open List

variable {k : List Char} {b : Bool}

open TypeExpr hiding name

/-! ## Types that can be written down -/

/-- Where a type stands. -/
inductive Place where
  /-- Where any type may stand. -/
  | plain
  /-- As the type of a parameter, which may be variadic. -/
  | param
  /-- As an element of an interface, which may be a union. -/
  | embed
deriving DecidableEq

/-- Whether a type can be embedded in a struct: a name, an instantiated type or a pointer. -/
def TypeExpr.isEmbeddable : TypeExpr → Bool
  | .name _ | .qualified .. | .generic .. | .pointer _ => true
  | _ => false

/-- Either every group of parameters has names or none has. -/
def Param.Uniform (ps : List Param) : Prop :=
  (∀ p ∈ ps, p.names = []) ∨ ∀ p ∈ ps, p.names ≠ []

mutual

/-- A type that can be written down at a place, with references of the kind `leaf`. -/
def TypeExpr.Formed (leaf : TypeExpr → Prop) (place : Place) : TypeExpr → Prop
  | .name n => leaf (.name n)
  | .qualified p n => leaf (.qualified p n)
  | .generic base args => base.isReference = true ∧ base.Formed leaf .plain ∧ args ≠ [] ∧
      ∀ a ∈ args, a.Formed leaf .plain
  | .pointer elem => elem.Formed leaf .plain
  | .slice elem => elem.Formed leaf .plain
  | .array len elem => IsLength len ∧ elem.Formed leaf .plain
  | .map key value => key.Formed leaf .plain ∧ value.Formed leaf .plain
  | .chan _ elem => elem.Formed leaf .plain
  | .func sig => sig.Formed leaf
  | .interface elems => ∀ e ∈ elems, e.Formed leaf
  | .struct fields => ∀ f ∈ fields, f.Formed leaf
  | .paren elem => elem.Formed leaf .plain
  | .ellipsis elem => place = .param ∧ elem.Formed leaf .plain
  | .union terms => place = .embed ∧ terms ≠ [] ∧ (∀ t, terms ≠ [⟨false, t⟩]) ∧
      ∀ t ∈ terms, t.Formed leaf

/-- A signature that can be written down. -/
def Signature.Formed (leaf : TypeExpr → Prop) : Signature → Prop
  | ⟨params, results⟩ => (∀ p ∈ params, p.Formed leaf) ∧ (∀ p ∈ results, p.Formed leaf) ∧
      Param.Uniform params ∧ Param.Uniform results

/-- A group of parameters that can be written down. -/
def Param.Formed (leaf : TypeExpr → Prop) : Param → Prop
  | ⟨names, type⟩ => (∀ n ∈ names, isIdentifier n = true) ∧ type.Formed leaf .param

/-- An element of an interface that can be written down. -/
def Element.Formed (leaf : TypeExpr → Prop) : Element → Prop
  | .method name sig => isIdentifier name = true ∧ sig.Formed leaf
  | .embed type => type.Formed leaf .embed

/-- A group of fields that can be written down. -/
def Field.Formed (leaf : TypeExpr → Prop) : Field → Prop
  | ⟨names, type, tag⟩ => (∀ n ∈ names, isIdentifier n = true) ∧
      (names = [] → type.isEmbeddable = true) ∧ type.Formed leaf .plain ∧ ∀ text ∈ tag, IsTag text

/-- A term that can be written down. -/
def Term.Formed (leaf : TypeExpr → Prop) : Term → Prop
  | ⟨_, type⟩ => type.Formed leaf .plain

end

/-- Whether a reference is made of identifiers. -/
def TypeExpr.hasIdentifiers : TypeExpr → Bool
  | .name n => isIdentifier n
  | .qualified p n => isIdentifier p && isIdentifier n
  | _ => false

/-- A reference made of identifiers. -/
abbrev identified : TypeExpr → Prop := fun l => l.hasIdentifiers = true

/-! ## The tokens of a type -/

namespace Form

/-- A form between an opening and a closing mark. -/
def within (opening closing : TokenKind) (F : Form) : Form :=
  (one opening).seq (F.seq (one closing))

/-- Forms with a mark between neighbours. -/
def separated (sep : TokenKind) : List Form → Form
  | [] => nothing
  | [F] => F
  | F :: Fs => F.seq ((one sep).seq (separated sep Fs))

/-- Forms with a semicolon behind each. -/
def ended : List Form → Form
  | [] => nothing
  | F :: Fs => F.seq ((one .semi).seq (ended Fs))

/-- Names with a comma between neighbours. -/
def words (names : List String) : Form :=
  separated .comma (names.map word)

/-- The tag of a field, if there is one. -/
def tag : Option String → Form
  | none => nothing
  | some text => fun ts => ∃ t, ts = [t] ∧ Parser.isTag (some t.kind) = true ∧ t.text = text

end Form

/-- The tokens of the keyword and arrow of a channel type. -/
def ChanDir.Spelled : ChanDir → Form
  | .both => .one .kwChan
  | .send => (Form.one .kwChan).seq (.one .arrow)
  | .recv => (Form.one .arrow).seq (.one .kwChan)

mutual

/-- The tokens of a type as it is printed. -/
def TypeExpr.Spelled : TypeExpr → Form
  | .name n => .word n
  | .qualified p n => (Form.word p).seq ((Form.one .dot).seq (.word n))
  | .generic base args =>
    base.Spelled.seq (.within .lBrack .rBrack (.separated .comma (args.map fun a => a.Spelled)))
  | .pointer elem => (Form.one .star).seq elem.Spelled
  | .slice elem => (Form.within .lBrack .rBrack .nothing).seq elem.Spelled
  | .array len elem => (Form.within .lBrack .rBrack (.length len)).seq elem.Spelled
  | .map key value =>
    (Form.one .kwMap).seq ((Form.within .lBrack .rBrack key.Spelled).seq value.Spelled)
  | .chan dir elem => dir.Spelled.seq
      (if elem.needsParens dir then .within .lParen .rParen elem.Spelled else elem.Spelled)
  | .func sig => (Form.one .kwFunc).seq sig.Spelled
  | .interface elems =>
    (Form.one .kwInterface).seq (.within .lBrace .rBrace (.ended (elems.map fun e => e.Spelled)))
  | .struct fields =>
    (Form.one .kwStruct).seq (.within .lBrace .rBrace (.ended (fields.map fun f => f.Spelled)))
  | .paren elem => .within .lParen .rParen elem.Spelled
  | .ellipsis elem => (Form.one .ellipsis).seq elem.Spelled
  | .union terms => .separated .pipe (terms.map fun t => t.Spelled)
termination_by t => sizeOf t

/-- The tokens of a signature as it is printed. -/
def Signature.Spelled : Signature → Form
  | ⟨params, []⟩ => .within .lParen .rParen (.separated .comma (params.map fun p => p.Spelled))
  | ⟨params, [⟨[], type⟩]⟩ =>
    (Form.within .lParen .rParen (.separated .comma (params.map fun p => p.Spelled))).seq
      type.Spelled
  | ⟨params, results⟩ =>
    (Form.within .lParen .rParen (.separated .comma (params.map fun p => p.Spelled))).seq
      (.within .lParen .rParen (.separated .comma (results.map fun p => p.Spelled)))
termination_by s => sizeOf s
decreasing_by
  all_goals
    try have := sizeOf_lt_of_mem ‹_ ∈ _›
    simp only [Signature.mk.sizeOf_spec, Param.mk.sizeOf_spec, List.cons.sizeOf_spec]
    omega

/-- The tokens of a group of parameters as it is printed. -/
def Param.Spelled : Param → Form
  | ⟨names, type⟩ => (Form.words names).seq type.Spelled
termination_by p => sizeOf p

/-- The tokens of an element of an interface as it is printed. -/
def Element.Spelled : Element → Form
  | .method name sig => (Form.word name).seq sig.Spelled
  | .embed type => type.Spelled
termination_by e => sizeOf e

/-- The tokens of a group of fields as it is printed. -/
def Field.Spelled : Field → Form
  | ⟨names, type, tag⟩ => (Form.words names).seq (type.Spelled.seq (.tag tag))
termination_by f => sizeOf f

/-- The tokens of a term of a union as it is printed. -/
def Term.Spelled : Term → Form
  | ⟨tilde, type⟩ => (if tilde then Form.one .tilde else .nothing).seq type.Spelled
termination_by t => sizeOf t

end

/-! ## Pieces of printed types -/

/-- A word ends before a text that starts with a mark or a blank. -/
theorem endsWord_append {s : List Char}
    (hs : s.head?.map Lexeme.continuesIdent = some false) : endsWord (s ++ k) = true := by
  cases s with
  | nil => cases hs
  | cons c s => simpa [endsWord] using hs

theorem endsWord_append_append {s t : List Char}
    (hs : s.head?.map Lexeme.continuesIdent = some false) : endsWord (s ++ t ++ k) = true := by
  rw [append_assoc]
  exact endsWord_append hs

/-- Marks that no operator goes on from, whatever follows them. -/
def solitaryMarks : List (String × TokenKind) :=
  [("(", .lParen), (")", .rParen), ("[", .lBrack), ("]", .rBrack), ("\x7b", .lBrace),
   ("\x7d", .rBrace), (",", .comma), ("~", .tilde), ("<-", .arrow), ("...", .ellipsis)]

namespace Emits

variable {s k : List Char} {b m a : Bool} {F G : Form} {kind : TokenKind}

/-- A mark that no operator goes on from. -/
theorem solitary (spelling : String) (hmem : (spelling, kind) ∈ solitaryMarks) :
    Emits spelling.toList k b kind.endsStatement (Form.one kind) := by
  have hmarks : ∀ e ∈ solitaryMarks, e ∈ TokenKind.operators ∧ e.1.toList.head? ≠ some '/' ∧
      Lexeme.followers e.1.toList = [] ∧ e.1 ≠ "." := by decide
  obtain ⟨hop, hslash, hnone, hpoint⟩ := hmarks _ hmem
  refine mark hop hslash fun d _ => ⟨?_, fun h => absurd h hpoint⟩
  simp [show Lexeme.followers spelling.toList = [] from hnone]

/-- A blank. -/
theorem space : Emits " ".toList k b b Form.nothing :=
  blanks (by decide)

/-- A comma and the blank behind it. -/
theorem comma : Emits ", ".toList k b false (Form.one .comma) :=
  (solitary "," (by decide)).skipRight space

/-- A bar and the blanks around it. -/
theorem bar : Emits " | ".toList k b false (Form.one .pipe) := by
  have hbar : Emits "|".toList (" ".toList ++ k) b false (.one .pipe) :=
    mark (by decide) (by decide) fun d hd => by cases hd; decide
  exact space.skip (hbar.skipRight space)

/-- Texts with a separator between neighbours. -/
theorem separated {α : Type} {sep : String} {text : α → String} {form : α → Form}
    (hsep : ∀ b k, Emits sep.toList k b false (Form.one kind))
    (hword : ∀ k, endsWord (sep.toList ++ k) = true) {items : List α}
    (hitem : ∀ x ∈ items, ∀ b k, endsWord k = true → Emits (text x).toList k b true (form x))
    (hk : endsWord k = true) :
    Emits (sep.intercalate (items.map text)).toList k b (b || !items.isEmpty)
      (Form.separated kind (items.map form)) := by
  rw [String.toList_intercalate, map_map]
  induction items generalizing b with
  | nil => simpa [Form.separated] using nil
  | cons x xs ih =>
    have hx := hitem x mem_cons_self b
    have hxs := ih (b := false) fun y hy => hitem y (mem_cons_of_mem _ hy)
    simp only [map_cons, isEmpty_cons, Bool.not_false, Bool.or_true]
    cases xs with
    | nil => simpa [List.intercalate, Form.separated] using hx k hk
    | cons y ys =>
      simp only [map_cons, Function.comp_apply, isEmpty_cons, Bool.not_false,
        Bool.or_true] at hxs ⊢
      rw [intercalate_cons_cons, append_assoc]
      exact (hx _ (by rw [append_assoc]; exact hword _)).append ((hsep true _).append hxs)

theorem lineBreak_true {n : Nat} : Emits (lineBreak n).toList k true false (Form.one .semi) := by
  rw [lineBreak, String.toList_ofList, ← singleton_append]
  exact lineEnd.skipRight (blanks (by simp [Lexeme.isSpace]))

theorem lineBreak_false {n : Nat} : Emits (lineBreak n).toList k false false Form.nothing := by
  rw [lineBreak, String.toList_ofList, ← singleton_append]
  exact lineGoesOn.skip (blanks (by simp [Lexeme.isSpace]))

theorem endsWord_lineBreak (n : Nat) : endsWord ((lineBreak n).toList ++ k) = true := by
  refine endsWord_append ?_
  rw [lineBreak, String.toList_ofList]
  exact (by decide : some (Lexeme.continuesIdent '\n') = some false)

section Lines

variable {α : Type} {text : α → String} {form : α → Form} {i j : Nat} {items : List α}

theorem endsWord_lines :
    endsWord ((String.join (items.map fun x => lineBreak i ++ text x)).toList
      ++ ((lineBreak j).toList ++ k)) = true := by
  cases items with
  | nil => exact endsWord_lineBreak j
  | cons x xs =>
    simp only [map_cons, String.join_cons, String.toList_append, append_assoc]
    exact endsWord_lineBreak i

/-- Lines, and the line break behind them, where a statement ends before them. -/
theorem lines_true
    (hitem : ∀ x ∈ items, ∀ k, endsWord k = true → Emits (text x).toList k false true (form x)) :
    Emits (String.join (items.map fun x => lineBreak i ++ text x) ++ lineBreak j).toList k true false
      ((Form.one .semi).seq (Form.ended (items.map form))) := by
  induction items with
  | nil => simpa [Form.ended] using lineBreak_true.append nil
  | cons x xs ih =>
    have hx := hitem x mem_cons_self
    have hxs := ih fun y hy => hitem y (mem_cons_of_mem _ hy)
    simp only [map_cons, String.join_cons, String.toList_append, append_assoc] at hxs ⊢
    refine lineBreak_true.append ((hx _ ?_).append hxs)
    rw [append_assoc]
    exact endsWord_lines

/-- Lines, and the line break behind them, at the start of a block. -/
theorem lines_false (hne : items ≠ [])
    (hitem : ∀ x ∈ items, ∀ k, endsWord k = true → Emits (text x).toList k false true (form x)) :
    Emits (String.join (items.map fun x => lineBreak i ++ text x) ++ lineBreak j).toList k false
      false (Form.ended (items.map form)) := by
  cases items with
  | nil => exact absurd rfl hne
  | cons x xs =>
    have hx := hitem x mem_cons_self
    have hxs := lines_true (i := i) (j := j) (k := k) fun y hy =>
      hitem y (mem_cons_of_mem _ hy)
    simp only [map_cons, String.join_cons, String.toList_append, append_assoc] at hxs ⊢
    refine lineBreak_false.skip ((hx _ ?_).append hxs)
    rw [append_assoc]
    exact endsWord_lines

end Lines

end Emits

/-! ## Printed lists -/

/-- A printer of lists that puts a separator between neighbours joins the printed items. -/
theorem eq_intercalate {α : Type} {print : α → String} {printAll : List α → String} {sep : String}
    (hnil : printAll [] = "") (hone : ∀ x, printAll [x] = print x)
    (hmore : ∀ x y ys, printAll (x :: y :: ys) = print x ++ sep ++ printAll (y :: ys))
    (xs : List α) : printAll xs = sep.intercalate (xs.map print) := by
  induction xs with
  | nil => rw [hnil, map_nil, String.intercalate_nil]
  | cons x xs ih =>
    cases xs with
    | nil => rw [hone, map_cons, map_nil, String.intercalate_singleton]
    | cons y ys => rw [hmore, ih]; exact String.intercalate_cons_cons.symm

theorem printTypes_eq (n : Nat) (ts : List TypeExpr) :
    printTypes n ts = ", ".intercalate (ts.map fun t => t.print n) :=
  eq_intercalate (by rw [printTypes]) (fun _ => by rw [printTypes])
    (fun _ _ _ => by rw [printTypes]; simp) ts

theorem printParams_eq (n : Nat) (ps : List Param) :
    printParams n ps = ", ".intercalate (ps.map fun p => p.print n) :=
  eq_intercalate (by rw [printParams]) (fun _ => by rw [printParams])
    (fun _ _ _ => by rw [printParams]; simp) ps

theorem printTerms_eq (n : Nat) (ts : List Term) :
    printTerms n ts = " | ".intercalate (ts.map fun t => t.print n) :=
  eq_intercalate (by rw [printTerms]) (fun _ => by rw [printTerms])
    (fun _ _ _ => by rw [printTerms]; simp) ts

theorem printElements_eq (n : Nat) (es : List Element) :
    printElements n es = String.join (es.map fun e => lineBreak n ++ e.print n) := by
  induction es with
  | nil => rw [printElements]; rfl
  | cons e es ih => rw [printElements, ih, map_cons, String.join_cons]

theorem fieldRows_eq (n : Nat) (fs : List Field) : fieldRows n fs = fs.map fun f => f.row n := by
  induction fs with
  | nil => rw [fieldRows]; rfl
  | cons f fs ih => rw [fieldRows, ih, map_cons]

/-! ## Printed types -/

namespace Emits

variable {s k : List Char} {b m a : Bool} {F G : Form} {names : List String}

/-- A text between two marks. -/
theorem within {opening closing : TokenKind} (left right : String)
    (hleft : (left, opening) ∈ solitaryMarks) (hright : (right, closing) ∈ solitaryMarks)
    (h : Emits s (right.toList ++ k) opening.endsStatement a F) :
    Emits (left.toList ++ (s ++ right.toList)) k b closing.endsStatement
      (Form.within opening closing F) :=
  (solitary left hleft).append (h.append (solitary right hright))

theorem braced {α : Type} {items : List α} {form : α → Form} {kind : TokenKind}
    {lines last : String} (spelling : String) (hmem : (spelling, kind) ∈ TokenKind.keywords)
    (hends : kind.endsStatement = false) (hlines : items ≠ [] → ∀ k,
      Emits (lines ++ last).toList k false false (Form.ended (items.map form))) :
    Emits (if items.isEmpty then spelling ++ "\x7b\x7d"
        else spelling ++ " \x7b" ++ lines ++ last ++ "\x7d").toList k b true
      ((Form.one kind).seq (Form.within .lBrace .rBrace (Form.ended (items.map form)))) := by
  have hkeyword : ∀ k, endsWord k = true →
      Emits spelling.toList k b false (.one kind) := by
    intro k hk
    rw [← hends]
    exact keyword hmem hk
  cases items with
  | nil =>
    rw [isEmpty_nil, if_pos rfl, String.toList_append]
    exact (hkeyword _ (endsWord_append rfl)).append
      (within "\x7b" "\x7d" (by decide) (by decide) nil)
  | cons x xs =>
    have hblock : Emits ("\x7b".toList ++ ((lines ++ last).toList ++ "\x7d".toList)) k false true
        (.within .lBrace .rBrace (.ended ((x :: xs).map form))) :=
      within "\x7b" "\x7d" (by decide) (by decide) (hlines (by simp) _)
    have hall := (hkeyword _ (endsWord_append_append rfl)).append
      (space.skip hblock)
    rw [isEmpty_cons, if_neg (by simp), show " \x7b" = " " ++ "\x7b" from rfl]
    simpa only [String.toList_append, append_assoc] using hall

/-- Names with commas between them. -/
theorem words (hnames : ∀ n ∈ names, isIdentifier n = true)
    (hk : endsWord k = true) :
    Emits (", ".intercalate names).toList k b (b || !names.isEmpty) (Form.words names) := by
  have h := separated (b := b) (fun _ _ => comma) (fun _ => endsWord_append rfl)
    (fun n hn b k hk => identifier (b := b) (hnames n hn) hk) hk
  rwa [map_id''] at h
  exact fun _ => rfl

theorem paramNames (hnames : ∀ n ∈ names, isIdentifier n = true) :
    Emits (paramNames names).toList k b (b || !names.isEmpty) (Form.words names) := by
  cases names with
  | nil => simpa [Stubwright.paramNames, Form.words, Form.separated] using nil
  | cons n names =>
    rw [Stubwright.paramNames, if_neg (by simp), String.toList_append]
    exact (words hnames (endsWord_append rfl)).skipRight space

end Emits

theorem isDigit_eq_false_of_startsIdent {c : Char} (h : Lexeme.startsIdent c = true) :
    c.isDigit = false := by
  rw [Bool.eq_false_iff]
  intro hdigit
  rw [Char.isDigit, Bool.and_eq_true, decide_eq_true_eq, decide_eq_true_eq] at hdigit
  have hlo : 48 ≤ c.toNat := UInt32.le_iff_toNat_le.1 hdigit.1
  have hhi : c.toNat ≤ 57 := UInt32.le_iff_toNat_le.1 hdigit.2
  have hletter : Text.isLetter c = false := by
    rw [Text.isLetter, if_pos (by omega)]
    simp [Char.isAlpha, Char.isUpper, Char.isLower, UInt32.le_iff_toNat_le]
    omega
  rw [Lexeme.startsIdent, hletter, Bool.or_false, decide_eq_true_eq] at h
  subst h
  exact absurd hhi (by decide)

theorem exists_start_of_isIdentifier {name : String} (h : isIdentifier name = true) :
    ∃ c u, name.toList = c :: u ∧ Lexeme.startsIdent c = true := by
  unfold isIdentifier at h
  split at h
  · cases h
  · rename_i c u heq
    simp only [Bool.and_eq_true] at h
    exact ⟨c, u, heq, h.1.1⟩

/-- A printed reference starts with a letter. -/
theorem TypeExpr.exists_start_of_hasIdentifiers {l : TypeExpr} (h : l.hasIdentifiers = true)
    (n : Nat) : ∃ c u, (l.print n).toList = c :: u ∧ Lexeme.startsIdent c = true := by
  cases l with
  | name m =>
    rw [print]
    exact exists_start_of_isIdentifier h
  | qualified p m =>
    rw [hasIdentifiers, Bool.and_eq_true] at h
    obtain ⟨c, u, heq, hc⟩ := exists_start_of_isIdentifier h.1
    rw [print, String.append_assoc, String.toList_append, heq]
    exact ⟨c, _, rfl, hc⟩
  | _ => cases h

theorem TypeExpr.hasIdentifiers_of_isReference {l : TypeExpr} {place : Place}
    (hl : l.isReference = true) (h : l.Formed identified place) : l.hasIdentifiers = true := by
  cases l with
  | name m => rwa [Formed] at h
  | qualified p m => rwa [Formed] at h
  | _ => cases hl

theorem TypeExpr.head?_print {t : TypeExpr} (h : t.Formed identified .plain) (n : Nat)
    (k : List Char) : ((t.print n).toList ++ k).head? ≠ some '=' := by
  have href : ∀ {l : TypeExpr} (k : List Char), l.hasIdentifiers = true →
      ((l.print n).toList ++ k).head? ≠ some '=' := by
    intro l k hl
    obtain ⟨c, u, heq, hc⟩ := exists_start_of_hasIdentifiers hl n
    rw [heq]
    rintro ⟨⟩
    exact absurd hc (by decide)
  cases t with
  | name m | qualified p m => exact href k (hasIdentifiers_of_isReference rfl h)
  | generic base args =>
    rw [Formed] at h
    rw [print, String.append_assoc, String.append_assoc, String.toList_append,
      append_assoc]
    exact href _ (hasIdentifiers_of_isReference h.1 h.2.1)
  | chan dir elem =>
    rw [print]
    split <;> cases dir <;> simp [ChanDir.opening, String.toList_append]
  | ellipsis elem | union terms => rw [Formed] at h; cases h.1
  | interface elems | struct fields => rw [print]; split <;> simp [String.toList_append]
  | pointer elem | slice elem | array len elem | map key value | func sig | paren elem =>
    simp [print, String.toList_append]

/-- Wherever it is printed, a type gives its tokens. -/
def TypeExpr.EmitsSpelled (t : TypeExpr) : Prop :=
  ∀ place, t.Formed identified place → ∀ n b k, endsWord k = true →
    Emits (t.print n).toList k b true t.Spelled

theorem ChanDir.emits_opening (dir : ChanDir) :
    Emits dir.opening.toList k b false dir.Spelled := by
  have hkeyword : ∀ {b k}, endsWord k = true → Emits "chan".toList k b false (.one .kwChan) :=
    fun hk => .keyword (by decide) hk
  have harrow : ∀ {b k}, Emits "<-".toList k b false (.one .arrow) :=
    .solitary "<-" (by decide)
  cases dir with
  | both => exact (hkeyword (endsWord_append rfl)).skipRight .space
  | send =>
    exact (hkeyword (endsWord_append rfl)).append (harrow.skipRight .space)
  | recv =>
    exact harrow.append ((hkeyword (endsWord_append rfl)).skipRight .space)

theorem Param.emits_print {p : Param} (htype : p.type.EmitsSpelled) (h : p.Formed identified)
    (n : Nat) (hk : endsWord k = true) :
    Emits (p.print n).toList k b true p.Spelled := by
  obtain ⟨names, type⟩ := p
  rw [Param.Formed] at h
  rw [Param.print, Param.Spelled, String.toList_append]
  exact (Emits.paramNames h.1).append (htype _ h.2 n _ k hk)

theorem Param.emits_printAll {ps : List Param} (htypes : ∀ p ∈ ps, p.type.EmitsSpelled)
    (h : ∀ p ∈ ps, p.Formed identified) (n : Nat) :
    Emits ("(".toList ++ ((printParams n ps).toList ++ ")".toList)) k b true
      (Form.within .lParen .rParen (Form.separated .comma (ps.map fun p => p.Spelled))) := by
  rw [printParams_eq]
  refine .within "(" ")" (by decide) (by decide) (.separated (fun _ _ => .comma)
    (fun _ => endsWord_append rfl) ?_ (endsWord_append rfl))
  exact fun p hp b k hk => Param.emits_print (htypes p hp) (h p hp) n hk

theorem Signature.emits_print {s : Signature} (htypes : s.Each EmitsSpelled)
    (h : s.Formed identified) (n : Nat) (hk : endsWord k = true) :
    Emits (s.print n).toList k b true s.Spelled := by
  obtain ⟨params, results⟩ := s
  rw [Signature.Formed] at h
  have hparams := fun b k => Param.emits_printAll (b := b) (k := k) htypes.1 h.1 n
  have hresults := fun b k => Param.emits_printAll (b := b) (k := k) htypes.2 h.2.1 n
  by_cases hnone : results = []
  · subst hnone
    rw [Signature.print, Signature.Spelled, String.append_assoc, String.toList_append,
      String.toList_append]
    exact hparams b k
  by_cases hsingle : ∃ type, results = [⟨[], type⟩]
  · obtain ⟨type, rfl⟩ := hsingle
    have hform := h.2.1 _ mem_cons_self
    rw [Param.Formed] at hform
    have htype := htypes.2 _ mem_cons_self _ hform.2 n true k hk
    rw [Signature.print, Signature.Spelled, show ") " = ")" ++ " " from rfl]
    simp only [String.toList_append, append_assoc]
    rw [← append_assoc, ← append_assoc, append_assoc "(".toList]
    exact (hparams b _).append (Emits.space.skip htype)
  · rw [Signature.print.eq_3 _ _ _ hnone fun type heq => hsingle ⟨type, heq⟩,
      Signature.Spelled.eq_3 _ _ hnone fun type heq => hsingle ⟨type, heq⟩,
      show ") (" = ")" ++ (" " ++ "(") from rfl]
    simp only [String.toList_append, append_assoc]
    rw [← append_assoc, ← append_assoc, append_assoc "(".toList]
    exact (hparams b _).append (Emits.space.skip (hresults true k))

theorem Signature.endsWord_print (s : Signature) (n : Nat) (k : List Char) :
    endsWord ((s.print n).toList ++ k) = true := by
  have hopen : (s.print n).toList.head? = some '(' := by
    unfold Signature.print
    split <;> simp [String.toList_append]
  refine endsWord_append ?_
  rw [hopen]
  decide

theorem Element.emits_print {e : Element} (htypes : e.Each EmitsSpelled)
    (h : e.Formed identified) (n : Nat) (hk : endsWord k = true) :
    Emits (e.print n).toList k b true e.Spelled := by
  cases e with
  | method name sig =>
    rw [Element.Formed] at h
    rw [Element.print, Element.Spelled, String.toList_append]
    exact (Emits.identifier h.1 (sig.endsWord_print n k)).append
      (Signature.emits_print htypes h.2 n hk)
  | embed type =>
    rw [Element.Formed] at h
    rw [Element.print, Element.Spelled]
    exact htypes _ h n b k hk

theorem Term.emits_print {t : Term} (htype : t.type.EmitsSpelled) (h : t.Formed identified)
    (n : Nat) (hk : endsWord k = true) :
    Emits (t.print n).toList k b true t.Spelled := by
  obtain ⟨tilde, type⟩ := t
  rw [Term.Formed] at h
  rw [Term.print, Term.Spelled, String.toList_append]
  cases tilde with
  | true => exact (Emits.solitary "~" (by decide)).append (htype _ h n _ k hk)
  | false => exact Emits.nil.append (htype _ h n _ k hk)

theorem Emits.spaces {n : Nat} :
    Emits (spaces n).toList k b b Form.nothing := by
  rw [Stubwright.spaces, String.toList_ofList]
  exact .blanks (by simp [Lexeme.isSpace])

theorem endsWord_spaces_succ (n : Nat) (k : List Char) :
    endsWord ((spaces (n + 1)).toList ++ k) = true := by
  refine endsWord_append ?_
  rw [spaces, String.toList_ofList]
  exact (by decide : some (Lexeme.continuesIdent ' ') = some false)

theorem FieldRow.emits_lead {names : List String} (hnames : ∀ n ∈ names, isIdentifier n = true)
    (width : Nat) (type : String) (tag : Option String) :
    Emits (lead width ⟨", ".intercalate names, type, tag⟩).toList k b (b || !names.isEmpty)
      (Form.words names) := by
  rw [lead]
  cases names with
  | nil => simpa [Form.words, Form.separated] using .nil
  | cons n names =>
    have hne : (", ".intercalate (n :: names)).isEmpty = false := by
      obtain ⟨c, u, heq, -⟩ := exists_start_of_isIdentifier (hnames n mem_cons_self)
      cases names with
      | nil =>
        rw [String.intercalate_singleton, String.isEmpty_eq_false_iff]
        rintro rfl
        cases heq
      | cons m names =>
        rw [String.intercalate_cons_cons]
        simp
    rw [if_neg (by simp [hne]), String.toList_append]
    exact (Emits.words hnames (endsWord_spaces_succ _ _)).skipRight .spaces

theorem IsTag.emits {text : String} (h : IsTag text) :
    Emits text.toList k b true (Form.tag (some text)) := by
  obtain ⟨kind, c, u, hkind, rfl, hscan⟩ := h
  have hends : kind.endsStatement = true := by
    rw [Parser.isTag, Bool.or_eq_true, beq_iff_eq, beq_iff_eq] at hkind
    rcases hkind with hkind | hkind <;> cases hkind <;> rfl
  rw [← hends]
  refine (Emits.token (String.toList_ofList) (hscan k)).mono ?_
  rintro ts ⟨t, rfl, rfl, htext⟩
  exact ⟨t, rfl, hkind, htext⟩

theorem Field.emits_render {f : Field} (htype : f.type.EmitsSpelled) (h : f.Formed identified)
    (n nameWidth typeWidth : Nat) (hk : endsWord k = true) :
    Emits ((f.row n).render nameWidth typeWidth).toList k false true f.Spelled := by
  obtain ⟨names, type, tag⟩ := f
  rw [Field.Formed] at h
  obtain ⟨hnames, -, hform, htag⟩ := h
  rw [Field.row, Field.Spelled, FieldRow.render]
  cases tag with
  | none =>
    simp only [String.toList_append]
    have hlast := (htype _ hform n (false || !names.isEmpty) k hk).append .nil
    rw [append_nil] at hlast
    exact (FieldRow.emits_lead hnames _ _ _).append hlast
  | some text =>
    simp only [String.toList_append, append_assoc]
    refine (FieldRow.emits_lead hnames _ _ _).append
      ((htype _ hform n _ _ ?_).append (Emits.spaces.skip (htag text rfl).emits))
    rw [append_assoc]
    exact endsWord_spaces_succ _ _

/-- A formed type, printed at any indentation and before any text that does not continue a word,
gives its tokens. -/
theorem TypeExpr.emitsSpelled (t : TypeExpr) : t.EmitsSpelled := by
  intro place h n b k hk
  induction t using partsInduction generalizing place n b k with
    (rw [Formed] at h; rw [print, Spelled])
  | name m => exact .identifier h hk
  | qualified p m =>
    rw [identified, hasIdentifiers, Bool.and_eq_true] at h
    rw [String.toList_append, String.toList_append,
      append_assoc]
    have hdot : Emits ".".toList (m.toList ++ k) true false (.one .dot) := by
      obtain ⟨c, u, heq, hc⟩ := exists_start_of_isIdentifier h.2
      refine .mark (by decide) (by decide) fun d hd => ?_
      rw [heq] at hd
      cases hd
      refine ⟨?_, fun _ => isDigit_eq_false_of_startsIdent hc⟩
      rw [show Lexeme.followers ".".toList = ['.'] by decide, mem_singleton]
      rintro rfl
      exact absurd hc (by decide)
    exact (Emits.identifier h.1 (endsWord_append_append rfl)).append
      (hdot.append (.identifier h.2 hk))
  | generic base args hbase hargs =>
    rw [printTypes_eq]
    simp only [String.toList_append, append_assoc]
    refine (hbase _ h.2.1 n b _ (endsWord_append_append rfl)).append
      (.within "[" "]" (by decide) (by decide) (.separated (fun _ _ => .comma)
        (fun _ => endsWord_append rfl) ?_ (endsWord_append rfl)))
    exact fun a ha b k hk => hargs a ha _ (h.2.2.2 a ha) n b k hk
  | pointer elem helem =>
    rw [String.toList_append]
    have hstar : Emits "*".toList ((elem.print n).toList ++ k) b false (.one .star) := by
      refine .mark (by decide) (by decide) fun d hd => ⟨?_, (by simp)⟩
      rw [show Lexeme.followers "*".toList = ['='] by decide, mem_singleton]
      rintro rfl
      exact head?_print h n k hd
    exact hstar.append (helem _ h n _ k hk)
  | slice elem helem =>
    rw [String.toList_append]
    exact (Emits.within "[" "]" (by decide) (by decide) .nil).append (helem _ h n _ k hk)
  | array len elem helem =>
    obtain ⟨⟨-, -, after, hlen⟩, h⟩ := h
    have hbracket : Emits ("[".toList ++ (len.toList ++ "]".toList)) ((elem.print n).toList ++ k) b
        true (.within .lBrack .rBrack (.length len)) :=
      .within "[" "]" (by decide) (by decide) (hlen _ _)
    have hall := hbracket.append (helem _ h n _ k hk)
    simpa only [String.toList_append, append_assoc] using hall
  | map key value hkey hvalue =>
    have hbracket : Emits ("[".toList ++ ((key.print n).toList ++ "]".toList))
        ((value.print n).toList ++ k) false true (.within .lBrack .rBrack key.Spelled) :=
      .within "[" "]" (by decide) (by decide)
        (hkey _ h.1 n _ _ (endsWord_append rfl))
    have hkeyword : Emits "map".toList (("[".toList ++ ((key.print n).toList ++ "]".toList)
        ++ (value.print n).toList) ++ k) b false (.one .kwMap) :=
      .keyword (by decide)
        (by rw [append_assoc]; exact endsWord_append_append rfl)
    have hall := hkeyword.append (hbracket.append (hvalue _ h.2 n _ k hk))
    rw [show "map[" = "map" ++ "[" from rfl]
    simpa only [String.toList_append, append_assoc] using hall
  | chan dir elem helem =>
    by_cases hparens : elem.needsParens dir = true
    · rw [if_pos hparens, if_pos hparens]
      simp only [String.toList_append, append_assoc]
      exact dir.emits_opening.append (.within "(" ")" (by decide) (by decide)
        (helem _ h n _ _ (endsWord_append rfl)))
    · rw [if_neg hparens, if_neg hparens, String.toList_append]
      exact dir.emits_opening.append (helem _ h n _ k hk)
  | func sig hsig =>
    rw [String.toList_append]
    exact (Emits.keyword (by decide) (sig.endsWord_print n k)).append
      (Signature.emits_print hsig h n hk)
  | interface elems helems =>
    rw [printElements_eq,
      show "interface\x7b\x7d" = "interface" ++ "\x7b\x7d" from rfl,
      show "interface \x7b" = "interface" ++ " \x7b" from rfl]
    refine .braced "interface" (by decide) rfl fun hne k => ?_
    exact Emits.lines_false hne fun e he k hk => Element.emits_print (helems e he) (h e he) _ hk
  | struct fields hfields =>
    rw [FieldRow.renderAll, fieldRows_eq, map_map,
      show "struct\x7b\x7d" = "struct" ++ "\x7b\x7d" from rfl,
      show "struct \x7b" = "struct" ++ " \x7b" from rfl]
    refine .braced "struct" (by decide) rfl fun hne k => ?_
    exact Emits.lines_false hne fun f hf k hk => Field.emits_render (hfields f hf) (h f hf) _ _ _ hk
  | paren elem helem =>
    rw [String.append_assoc, String.toList_append,
      String.toList_append]
    exact .within "(" ")" (by decide) (by decide)
      (helem _ h n _ _ (endsWord_append rfl))
  | ellipsis elem helem =>
    rw [String.toList_append]
    exact (Emits.solitary "..." (by decide)).append (helem _ h.2 n _ k hk)
  | union terms hterms =>
    obtain ⟨-, hne, -, h⟩ := h
    rw [printTerms_eq]
    have hall : Emits (" | ".intercalate (terms.map fun t => t.print n)).toList k b
        (b || !terms.isEmpty) (.separated .pipe (terms.map fun t => t.Spelled)) :=
      .separated (fun _ _ => .bar) (fun _ => endsWord_append rfl)
        (fun t ht b k hk => Term.emits_print (hterms t ht) (h t ht) n hk) hk
    rwa [isEmpty_eq_false_iff.2 hne, Bool.not_false, Bool.or_true] at hall

end Stubwright
