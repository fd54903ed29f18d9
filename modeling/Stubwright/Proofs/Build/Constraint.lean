import Mathlib
import Stubwright.Build.Constraint

/-!
# The language of build constraints

The reader of constraints takes exactly the token lists of a grammar with three levels, and gives
each of them the value of the one tree that the grammar gives it.

* `sound_within`: what is read is derived, its value is that of the tree, and the rest is left.
* `isRead_of_derives`: what is derived is read, whatever follows that cannot go on with it.
* `evaluates`: a text has a value just if its tokens are derived, and the value is that of the tree;
  every text of a tree, however it is spaced and grouped, has the value of the tree.
-/

namespace Stubwright.Build

open List

/-- A boolean expression over tags. -/
inductive Constraint where
  | tag (name : String)
  | not (arg : Constraint)
  | and (left right : Constraint)
  | or (left right : Constraint)
deriving DecidableEq, Repr

namespace Constraint

variable {α : Type} {m : Meaning α} {ts us : List Tok} {e : Constraint} {text : List Char}
  {c : Char} {f : Constraint}

/-! ## Values of trees -/

/-- The value of an expression where some tags hold. -/
def eval (holds : String → Bool) : Constraint → Bool
  | .tag name => holds name
  | .not arg => !arg.eval holds
  | .and left right => left.eval holds && right.eval holds
  | .or left right => left.eval holds || right.eval holds

/-- What an expression stands for. -/
def under (m : Meaning α) : Constraint → α
  | .tag name => m.tag name
  | .not arg => m.not (arg.under m)
  | .and left right => m.and (left.under m) (right.under m)
  | .or left right => m.or (left.under m) (right.under m)

/-- An expression stands for its value. -/
theorem under_truth (e : Constraint) : e.under truth = e.eval holdsTag := by
  induction e with
  | tag name => rfl
  | not arg ih => rw [under, eval, ih]; rfl
  | and left right ihl ihr | or left right ihl ihr => rw [under, eval, ihl, ihr]; rfl

/-- Every expression stands for its own tree. -/
def trees : Meaning Constraint :=
  ⟨.tag, .not, .and, .or⟩

theorem under_trees (e : Constraint) : e.under trees = e := by
  induction e with
  | tag name => rfl
  | not arg ih => rw [under, ih]; rfl
  | and left right ihl ihr | or left right ihl ihr => rw [under, ihl, ihr]; rfl

/-! ## The grammar -/

/-- A word that can be a tag. -/
def IsTag (name : String) : Prop :=
  name.toList ≠ [] ∧ name.toList.all isWordChar = true

theorem IsTag.exists_cons {name : String} (h : IsTag name) :
    ∃ c w, name.toList = c :: w ∧ isWordChar c = true ∧ ∀ d ∈ w, isWordChar d = true := by
  obtain ⟨hne, hall⟩ := h
  obtain ⟨c, w, hw⟩ := exists_cons_of_ne_nil hne
  rw [hw, all_cons, Bool.and_eq_true, all_eq_true] at hall
  exact ⟨c, w, hw, hall⟩

/-- The levels of the grammar, from the tightest. -/
inductive Level where
  | operand
  | conjunction
  | disjunction

/-- `Derives level ts e`: the tokens are an expression of that level, and `e` is its tree. -/
inductive Derives : Level → List Tok → Constraint → Prop
  | tag {name : String} (hname : IsTag name) : Derives .operand [.word name] (.tag name)
  | not {ts : List Tok} {e : Constraint} (h : Derives .operand ts e) :
      Derives .operand (.not :: ts) (.not e)
  | group {ts : List Tok} {e : Constraint} (h : Derives .disjunction ts e) :
      Derives .operand (.lParen :: (ts ++ [.rParen])) e
  | operand {ts : List Tok} {e : Constraint} (h : Derives .operand ts e) :
      Derives .conjunction ts e
  | and {ts us : List Tok} {e f : Constraint} (h : Derives .conjunction ts e)
      (h' : Derives .operand us f) : Derives .conjunction (ts ++ .and :: us) (.and e f)
  | conjunction {ts : List Tok} {e : Constraint} (h : Derives .conjunction ts e) :
      Derives .disjunction ts e
  | or {ts us : List Tok} {e f : Constraint} (h : Derives .disjunction ts e)
      (h' : Derives .conjunction us f) : Derives .disjunction (ts ++ .or :: us) (.or e f)

/-- Every word among the tokens can be a tag. -/
def WellSpelled (ts : List Tok) : Prop :=
  ∀ name, .word name ∈ ts → IsTag name

theorem WellSpelled.of_suffix (h : WellSpelled ts) (hus : us <:+ ts) : WellSpelled us :=
  fun name hname => h name (hus.subset hname)

/-- The tokens are an expression of a level, and it stands for the value. -/
def Gives (m : Meaning α) (level : Level) (ts : List Tok) (value : α) : Prop :=
  ∃ e, Derives level ts e ∧ e.under m = value

/-! ## What is read is derived -/

section sound

variable {P Q : List Tok → α → Prop} {op : Tok} {join : α → α → α} {item : Reader α}

/-- What a reader takes off the front of its tokens has the property. -/
def Sound (P : List Tok → α → Prop) (item : Reader α) : Prop :=
  ∀ ⦃ts : List Tok⦄ ⦃value : α⦄ ⦃rest : List Tok⦄, WellSpelled ts →
    item ts = some (value, rest) → ∃ us, ts = us ++ rest ∧ P us value

theorem sound_operand {nested : Reader α} (hnested : Sound (Gives m .disjunction) nested) :
    Sound (Gives m .operand) (operand m nested) := by
  intro ts
  induction ts with
  | nil => simp [operand]
  | cons t ts ih =>
    intro value rest hts h
    have htail : WellSpelled ts := hts.of_suffix (suffix_cons t ts)
    cases t with
    | not =>
      obtain ⟨⟨arg, rest'⟩, harg, heq⟩ := Option.map_eq_some_iff.1 h
      obtain ⟨rfl, rfl⟩ := Prod.mk.inj heq
      obtain ⟨us, rfl, e, he, rfl⟩ := ih htail harg
      exact ⟨.not :: us, rfl, .not e, .not he, rfl⟩
    | lParen =>
      rw [operand] at h
      split at h
      · rename_i inner rest' hinner
        obtain ⟨rfl, rfl⟩ := Prod.mk.inj (Option.some.inj h)
        obtain ⟨us, rfl, e, he, rfl⟩ := hnested htail hinner
        exact ⟨.lParen :: (us ++ [.rParen]), by simp, e, .group he, rfl⟩
      · cases h
    | word name =>
      obtain ⟨rfl, rfl⟩ := Prod.mk.inj (Option.some.inj h)
      exact ⟨[.word name], rfl, .tag name, .tag (hts name mem_cons_self), rfl⟩
    | or => cases h
    | and => cases h
    | rParen => cases h
    | stray char => cases h

/-- A chain that has been read up to a value goes on to be a chain. -/
theorem sound_chain (hitem : Sound P item)
    (hjoin : ∀ {ts us : List Tok} {v w : α}, Q ts v → P us w → Q (ts ++ op :: us) (join v w))
    {n : Nat} {left value : α} {before rest : List Tok} (hts : WellSpelled ts)
    (hleft : Q before left) (h : chain op join item n left ts = some (value, rest)) :
    ∃ us, ts = us ++ rest ∧ Q (before ++ us) value := by
  induction n generalizing left before ts with
  | zero =>
    obtain ⟨rfl, rfl⟩ := Prod.mk.inj (Option.some.inj h)
    exact ⟨[], rfl, by simpa using hleft⟩
  | succ n ih =>
    cases ts with
    | nil =>
      obtain ⟨rfl, rfl⟩ := Prod.mk.inj (Option.some.inj h)
      exact ⟨[], rfl, by simpa using hleft⟩
    | cons t ts =>
      simp only [chain] at h
      split at h
      · rename_i hop
        subst hop
        have htail : WellSpelled ts := hts.of_suffix (suffix_cons t ts)
        split at h
        · rename_i right rest' hright
          obtain ⟨us, rfl, hus⟩ := hitem htail hright
          obtain ⟨vs, rfl, hvs⟩ :=
            ih (htail.of_suffix (suffix_append us rest')) (hjoin hleft hus) h
          exact ⟨t :: (us ++ vs), by simp, by simpa using hvs⟩
        · cases h
      · obtain ⟨rfl, rfl⟩ := Prod.mk.inj (Option.some.inj h)
        exact ⟨[], rfl, by simpa using hleft⟩

theorem sound_joined (hitem : Sound P item)
    (hone : ∀ {ts : List Tok} {v : α}, P ts v → Q ts v)
    (hjoin : ∀ {ts us : List Tok} {v w : α}, Q ts v → P us w →
      Q (ts ++ op :: us) (join v w)) : Sound Q (joined op join item) := by
  intro ts value rest hts h
  rw [joined] at h
  split at h
  · rename_i left rest' hleft
    obtain ⟨us, rfl, hus⟩ := hitem hts hleft
    obtain ⟨vs, rfl, hvs⟩ :=
      sound_chain hitem hjoin (hts.of_suffix (suffix_append us rest')) (hone hus) h
    exact ⟨us ++ vs, by simp, hvs⟩
  · cases h

end sound

/-- What is read is derived, and has the value of its tree. -/
theorem sound_within (m : Meaning α) (depth : Nat) :
    Sound (Gives m .disjunction) (within m depth) := by
  induction depth with
  | zero => intro ts value rest _ h; cases h
  | succ depth ih =>
    have hconjunction : Sound (Gives m .conjunction)
        (joined .and m.and (operand m (within m depth))) := by
      refine sound_joined (sound_operand ih) ?_ ?_
      · rintro ts _ ⟨e, he, rfl⟩
        exact ⟨e, .operand he, rfl⟩
      · rintro ts us _ _ ⟨e, he, rfl⟩ ⟨f, hf, rfl⟩
        exact ⟨.and e f, .and he hf, rfl⟩
    refine sound_joined hconjunction ?_ ?_
    · rintro ts _ ⟨e, he, rfl⟩
      exact ⟨e, .conjunction he, rfl⟩
    · rintro ts us _ _ ⟨e, he, rfl⟩ ⟨f, hf, rfl⟩
      exact ⟨.or e f, .or he hf, rfl⟩

/-! ## What is derived is read -/

section reaches

variable {op : Tok} {join : α → α → α} {item : Reader α} {ts us rest : List Tok} {left right : α}

/-- Reading a chain comes to the value `left`, with `rest` still to be looked at and enough
operators left. -/
def Reaches (op : Tok) (join : α → α → α) (item : Reader α) (ts : List Tok) (left : α)
    (rest : List Tok) : Prop :=
  ∃ n, rest.length ≤ n ∧ joined op join item ts = chain op join item n left rest

theorem Reaches.first (h : item ts = some (left, rest)) : Reaches op join item ts left rest :=
  ⟨rest.length, le_rfl, by rw [joined, h]⟩

theorem Reaches.next (h : Reaches op join item ts left (op :: (us ++ rest)))
    (hitem : item (us ++ rest) = some (right, rest)) :
    Reaches op join item ts (join left right) rest := by
  obtain ⟨n, hn, h⟩ := h
  rw [length_cons, length_append] at hn
  obtain ⟨n, rfl⟩ : ∃ k, n = k + 1 := ⟨n - 1, by omega⟩
  refine ⟨n, by omega, ?_⟩
  rw [h, chain, if_pos rfl, hitem]

theorem Reaches.stop (h : Reaches op join item ts left rest) (hrest : rest.head? ≠ some op) :
    joined op join item ts = some (left, rest) := by
  obtain ⟨n, -, h⟩ := h
  rw [h]
  cases n with
  | zero => rfl
  | succ n =>
    cases rest with
    | nil => rfl
    | cons t rest =>
      rw [chain, if_neg]
      rintro rfl
      exact hrest rfl

end reaches

/-- The tokens of a level are read to the end, before every rest that does not go on with them. -/
def IsRead (m : Meaning α) (depth : Nat) (ts : List Tok) (value : α) : Level → Prop
  | .operand => ∀ rest, operand m (within m depth) (ts ++ rest) = some (value, rest)
  | .conjunction => ∀ rest,
      Reaches .and m.and (operand m (within m depth)) (ts ++ rest) value rest
  | .disjunction => ∀ rest, rest.head? ≠ some .and →
      Reaches .or m.or (joined .and m.and (operand m (within m depth))) (ts ++ rest) value rest

variable {level : Level}

/-- What is derived is read, with the value of its tree. -/
theorem isRead_of_derives (m : Meaning α) (h : Derives level ts e) {depth : Nat}
    (hdepth : ts.length ≤ depth) : IsRead m depth ts (e.under m) level := by
  induction h generalizing depth with
  | tag hname => intro rest; rfl
  | not _ ih =>
    intro rest
    rw [length_cons] at hdepth
    rw [cons_append, operand, ih (by omega) rest]
    rfl
  | @group ts e _ ih =>
    intro rest
    -- The two parentheses pay for the level that they open.
    rw [length_cons, length_append, length_singleton] at hdepth
    obtain ⟨depth, rfl⟩ : ∃ k, depth = k + 1 := ⟨depth - 1, by omega⟩
    have hinner : within m (depth + 1) (ts ++ .rParen :: rest)
        = some (e.under m, .rParen :: rest) :=
      (ih (by omega) (.rParen :: rest) (by simp)).stop (by simp)
    rw [cons_append, append_assoc, singleton_append, operand, hinner]
  | operand _ ih => exact fun rest => .first (ih hdepth rest)
  | @and ts us e f _ _ ih ih' =>
    intro rest
    rw [length_append, length_cons] at hdepth
    rw [append_assoc, cons_append]
    exact (ih (by omega) (.and :: (us ++ rest))).next (ih' (by omega) rest)
  | conjunction _ ih => exact fun rest hrest => .first ((ih hdepth rest).stop hrest)
  | @or ts us e f _ _ ih ih' =>
    intro rest hrest
    rw [length_append, length_cons] at hdepth
    rw [append_assoc, cons_append]
    exact (ih (by omega) (.or :: (us ++ rest)) (by simp)).next
      ((ih' (by omega) rest).stop hrest)

/-! ## Token lists as a whole -/

theorem ofTokens?_of_derives (m : Meaning α) (h : Derives .disjunction ts e) :
    ofTokens? m ts = some (e.under m) := by
  have hread := (isRead_of_derives m h le_rfl [] (by simp)).stop (by simp)
  rw [append_nil] at hread
  rw [ofTokens?, within, hread]

/-- The reader takes the token lists of the grammar and gives them the values of their trees. -/
theorem ofTokens?_eq_some_iff (hts : WellSpelled ts) {value : α} :
    ofTokens? m ts = some value ↔ Gives m .disjunction ts value := by
  constructor
  · intro h
    rw [ofTokens?] at h
    split at h
    · rename_i v hread
      obtain rfl := Option.some.inj h
      obtain ⟨us, rfl, hus⟩ := sound_within m _ hts hread
      rwa [append_nil]
    · cases h
  · rintro ⟨e, he, rfl⟩
    exact ofTokens?_of_derives m he

/-- No token list has two trees. -/
theorem Derives.unique (he : Derives .disjunction ts e)
    (hf : Derives .disjunction ts f) : e = f := by
  have htrees := (ofTokens?_of_derives trees he).symm.trans (ofTokens?_of_derives trees hf)
  rwa [under_trees, under_trees, Option.some.injEq] at htrees

/-! ## Tokens of a text -/

theorem wellSpelled_cons {t : Tok} (ht : ∀ name, t = .word name → IsTag name)
    (hts : WellSpelled ts) : WellSpelled (t :: ts) := by
  intro name hname
  rcases mem_cons.1 hname with hname | hname
  · exact ht name hname.symm
  · exact hts name hname

theorem wellSpelled_tokens (text : List Char) : WellSpelled (tokens text) := by
  fun_induction tokens text with
  | case1 => intro name hname; cases hname
  | case2 c cs _ ih => exact ih
  | case8 c cs _ _ _ _ _ _ hc ih =>
    refine wellSpelled_cons ?_ ih
    rintro name ⟨⟩
    rw [IsTag, String.toList_ofList, all_eq_true]
    refine ⟨cons_ne_nil _ _, fun d hd => ?_⟩
    rcases mem_cons.1 hd with rfl | hd
    · exact hc
    · exact mem_takeWhile_imp hd
  | _ => exact wellSpelled_cons (by simp) ‹_›

/-! ## Texts of a tree -/

/-- The blanks between tokens. -/
def IsGap (c : Char) : Prop :=
  c = ' ' ∨ c = '\t'

/-- An operator, written with one or two of its characters. -/
def IsOperator (c : Char) (op : List Char) : Prop :=
  op = [c] ∨ op = [c, c]

/-- `Spells level e text`: the text is a way to write the tree at that level.  Parentheses may stand
around everything, and have to stand where the tree does not follow from how tightly the operators
bind; a chain of one operator needs none. -/
inductive Spells : Level → Constraint → List Char → Prop
  | tag {name : String} (hname : IsTag name) : Spells .operand (.tag name) name.toList
  | not {e : Constraint} {text : List Char} (h : Spells .operand e text) :
      Spells .operand (.not e) ('!' :: text)
  | group {e : Constraint} {text : List Char} (h : Spells .disjunction e text) :
      Spells .operand e ('(' :: (text ++ [')']))
  | operand {e : Constraint} {text : List Char} (h : Spells .operand e text) :
      Spells .conjunction e text
  | and {e f : Constraint} {op text text' : List Char} (hop : IsOperator '&' op)
      (h : Spells .conjunction e text) (h' : Spells .conjunction f text') :
      Spells .conjunction (.and e f) (text ++ (op ++ text'))
  | conjunction {e : Constraint} {text : List Char} (h : Spells .conjunction e text) :
      Spells .disjunction e text
  | or {e f : Constraint} {op text text' : List Char} (hop : IsOperator '|' op)
      (h : Spells .disjunction e text) (h' : Spells .disjunction f text') :
      Spells .disjunction (.or e f) (text ++ (op ++ text'))
  | before {level : Level} {e : Constraint} {c : Char} {text : List Char} (hc : IsGap c)
      (h : Spells level e text) : Spells level e (c :: text)
  | behind {level : Level} {e : Constraint} {c : Char} {text : List Char} (hc : IsGap c)
      (h : Spells level e text) : Spells level e (text ++ [c])

/-- The characters that are tokens of their own or divide tokens. -/
def marks : List Char :=
  [' ', '\t', '(', ')', '!', '&', '|']

theorem isWordChar_of_lt (hc : c.toNat < 0x80) :
    isWordChar c = (c.isAlphanum || c = '_' || c = '.') := by
  rw [isWordChar, Text.isAlphanumeric, Text.isLetter, Text.isDecimalDigit, if_pos hc, if_pos hc,
    decide_eq_false (Nat.not_le.2 hc), Bool.false_and, Bool.or_false, Char.isAlphanum]

theorem isWordChar_of_mem_marks (hc : c ∈ marks) : isWordChar c = false := by
  have hmarks : ∀ d ∈ marks, d.toNat < 0x80 ∧ (d.isAlphanum || d = '_' || d = '.') = false := by
    simp [marks]
  obtain ⟨hlt, hother⟩ := hmarks c hc
  rw [isWordChar_of_lt hlt, hother]

theorem ne_of_isWordChar {d : Char} (hc : isWordChar c = true) (hd : d ∈ marks) : c ≠ d := by
  rintro rfl
  rw [isWordChar_of_mem_marks hd] at hc
  cases hc

/-- No word goes on at the start of the text. -/
def EndsWord (cs : List Char) : Prop :=
  ∀ c ∈ cs.head?, isWordChar c = false

theorem endsWord_cons (hc : c ∈ marks) (cs : List Char) : EndsWord (c :: cs) := by
  rintro d ⟨⟩
  exact isWordChar_of_mem_marks hc

/-- The tokens of a text, which are the same whatever follows that does not go on with a word. -/
def HasTokens (text : List Char) (ts : List Tok) : Prop :=
  ∀ k, EndsWord k → tokens (text ++ k) = ts ++ tokens k

namespace HasTokens

variable {text text' : List Char} {ts us : List Tok}

theorem tokens_eq (h : HasTokens text ts) : tokens text = ts := by
  have hall := h [] (by rintro c ⟨⟩)
  rwa [append_nil, tokens, append_nil] at hall

theorem tag {name : String} (hname : IsTag name) : HasTokens name.toList [.word name] := by
  intro k hk
  obtain ⟨c, w, hw, hc, htail⟩ := hname.exists_cons
  rw [hw]
  have hother : ∀ d ∈ marks, c ≠ d := fun d hd => ne_of_isWordChar hc hd
  simp only [marks, forall_mem_cons] at hother
  have hstop : k.takeWhile isWordChar = [] ∧ k.dropWhile isWordChar = k := by
    cases k with
    | nil => exact ⟨rfl, rfl⟩
    | cons d k => simp [hk d rfl]
  rw [cons_append, tokens, takeWhile_append_of_pos htail,
    dropWhile_append_of_pos htail, hstop.1, hstop.2, append_nil, ← hw,
    String.ofList_toList]
  simp [hother, hc]

theorem not (h : HasTokens text ts) : HasTokens ('!' :: text) (.not :: ts) := by
  intro k hk
  rw [cons_append, tokens, h k hk]
  simp

theorem group (h : HasTokens text ts) :
    HasTokens ('(' :: (text ++ [')'])) (.lParen :: (ts ++ [.rParen])) := by
  intro k hk
  have hclose : tokens (text ++ ')' :: k) = ts ++ .rParen :: tokens k := by
    rw [h _ (endsWord_cons (by decide) k)]
    simp [tokens]
  rw [cons_append, append_assoc, singleton_append, tokens, hclose]
  simp

theorem before (hc : IsGap c) (h : HasTokens text ts) : HasTokens (c :: text) ts := by
  intro k hk
  rw [cons_append, tokens, if_pos (by simpa [IsGap] using hc), h k hk]

theorem behind (hc : IsGap c) (h : HasTokens text ts) : HasTokens (text ++ [c]) ts := by
  intro k hk
  have hmark : c ∈ marks := by rcases hc with rfl | rfl <;> decide
  rw [append_assoc, singleton_append, h _ (endsWord_cons hmark k), tokens,
    if_pos (by simpa [IsGap] using hc)]

/-- An operator between two texts, of which the second does not start with its character. -/
theorem operator {t : Tok} {op : List Char} (hop : IsOperator c op)
    (hc : c = '&' ∧ t = .and ∨ c = '|' ∧ t = .or) (h : HasTokens text ts) (h' : HasTokens text' us)
    (hhead : ∃ d cs, text' = d :: cs ∧ d ≠ c) :
    HasTokens (text ++ (op ++ text')) (ts ++ t :: us) := by
  intro k hk
  obtain ⟨d, cs, rfl, hd⟩ := hhead
  have hmark : c ∈ marks := by rcases hc with ⟨rfl, -⟩ | ⟨rfl, -⟩ <;> decide
  have hstart : ∀ z, tokens (c :: z) = t :: tokens (dropOne c z) := by
    intro z
    rcases hc with ⟨rfl, rfl⟩ | ⟨rfl, rfl⟩ <;> simp [tokens]
  have htokens : EndsWord (op ++ (d :: cs ++ k)) ∧
      tokens (op ++ (d :: cs ++ k)) = t :: tokens (d :: cs ++ k) := by
    rcases hop with rfl | rfl
    · have hdrop : dropOne c (d :: cs ++ k) = d :: cs ++ k := if_neg hd
      refine ⟨endsWord_cons hmark _, ?_⟩
      rw [singleton_append, hstart, hdrop]
    · have hdrop : dropOne c (c :: (d :: cs ++ k)) = d :: cs ++ k := if_pos rfl
      refine ⟨endsWord_cons hmark _, ?_⟩
      rw [cons_append, singleton_append, hstart, hdrop]
  rw [append_assoc, append_assoc, h _ htokens.1, htokens.2, h' k hk, append_assoc,
    cons_append]

end HasTokens

/-- A text of a tree does not start with an operator. -/
theorem Spells.exists_cons (h : Spells level e text) :
    ∃ c cs, text = c :: cs ∧ c ≠ '&' ∧ c ≠ '|' := by
  induction h with
  | @tag name hname =>
    obtain ⟨c, w, hw, hc, -⟩ := hname.exists_cons
    exact ⟨c, w, hw, ne_of_isWordChar hc (by decide), ne_of_isWordChar hc (by decide)⟩
  | not _ _ => exact ⟨'!', _, rfl, by decide⟩
  | group _ _ => exact ⟨'(', _, rfl, by decide⟩
  | operand _ ih => exact ih
  | conjunction _ ih => exact ih
  | before hc _ _ => exact ⟨_, _, rfl, by rcases hc with rfl | rfl <;> decide⟩
  | and _ _ _ ih _ | or _ _ _ ih _ | behind _ _ ih =>
    obtain ⟨c, cs, rfl, hc⟩ := ih
    exact ⟨c, _, rfl, hc⟩

/-- A chain on the right of an operator is taken into the chain on its left. -/
theorem Derives.and_chain (h : Derives .conjunction ts e)
    (h' : Derives .conjunction us f) : ∃ g, Derives .conjunction (ts ++ .and :: us) g ∧
      ∀ holds, g.eval holds = (e.eval holds && f.eval holds) := by
  generalize hlevel : Level.conjunction = level at h'
  induction h' with
  | operand h' => exact ⟨_, .and h h', fun _ => rfl⟩
  | @and us vs f f' _ h' ih _ =>
    obtain ⟨g, hg, heval⟩ := ih hlevel
    refine ⟨.and g f', by simpa using Derives.and hg h', fun holds => ?_⟩
    simp [eval, heval, Bool.and_assoc]
  | _ => cases hlevel

theorem Derives.or_chain (h : Derives .disjunction ts e)
    (h' : Derives .disjunction us f) : ∃ g, Derives .disjunction (ts ++ .or :: us) g ∧
      ∀ holds, g.eval holds = (e.eval holds || f.eval holds) := by
  generalize hlevel : Level.disjunction = level at h'
  induction h' with
  | conjunction h' => exact ⟨_, .or h h', fun _ => rfl⟩
  | @or us vs f f' _ h' ih _ =>
    obtain ⟨g, hg, heval⟩ := ih hlevel
    refine ⟨.or g f', by simpa using Derives.or hg h', fun holds => ?_⟩
    simp [eval, heval, Bool.or_assoc]
  | _ => cases hlevel

/-- A text of a tree has the tokens of a tree with the same value. -/
theorem Spells.derives (h : Spells level e text) : ∃ ts f, HasTokens text ts ∧ Derives level ts f ∧
      ∀ holds, f.eval holds = e.eval holds := by
  induction h with
  | tag hname => exact ⟨_, _, .tag hname, .tag hname, fun _ => rfl⟩
  | not _ ih =>
    obtain ⟨ts, f, htokens, hf, heval⟩ := ih
    exact ⟨_, _, htokens.not, .not hf, fun holds => by rw [eval, eval, heval]⟩
  | group _ ih =>
    obtain ⟨ts, f, htokens, hf, heval⟩ := ih
    exact ⟨_, f, htokens.group, .group hf, heval⟩
  | operand _ ih =>
    obtain ⟨ts, f, htokens, hf, heval⟩ := ih
    exact ⟨ts, f, htokens, .operand hf, heval⟩
  | conjunction _ ih =>
    obtain ⟨ts, f, htokens, hf, heval⟩ := ih
    exact ⟨ts, f, htokens, .conjunction hf, heval⟩
  | and hop _ h' ih ih' =>
    obtain ⟨ts, e', htokens, he', heval⟩ := ih
    obtain ⟨us, f', htokens', hf', heval'⟩ := ih'
    obtain ⟨c, cs, htext, hc, -⟩ := h'.exists_cons
    obtain ⟨g, hg, hvalue⟩ := he'.and_chain hf'
    refine ⟨_, g, .operator hop (.inl ⟨rfl, rfl⟩) htokens htokens' ⟨c, cs, htext, hc⟩, hg, ?_⟩
    intro holds
    rw [hvalue, heval, heval', eval]
  | or hop _ h' ih ih' =>
    obtain ⟨ts, e', htokens, he', heval⟩ := ih
    obtain ⟨us, f', htokens', hf', heval'⟩ := ih'
    obtain ⟨c, cs, htext, -, hc⟩ := h'.exists_cons
    obtain ⟨g, hg, hvalue⟩ := he'.or_chain hf'
    refine ⟨_, g, .operator hop (.inr ⟨rfl, rfl⟩) htokens htokens' ⟨c, cs, htext, hc⟩, hg, ?_⟩
    intro holds
    rw [hvalue, heval, heval', eval]
  | before hc _ ih =>
    obtain ⟨ts, f, htokens, hrest⟩ := ih
    exact ⟨ts, f, htokens.before hc, hrest⟩
  | behind hc _ ih =>
    obtain ⟨ts, f, htokens, hrest⟩ := ih
    exact ⟨ts, f, htokens.behind hc, hrest⟩

/-! ## The value of a text -/

/-- A text has the value of the tree that its tokens have. -/
theorem value?_eq_some_iff {v : Bool} : value? text = some v ↔
    ∃ e, Derives .disjunction (tokens text) e ∧ e.eval holdsTag = v := by
  simp only [value?, ofTokens?_eq_some_iff (wellSpelled_tokens text), Gives, under_truth]

/-- The texts that have a value are those whose tokens the grammar derives, and the value is that of
the one tree it gives them: no token list has two trees, a token list without one has no value, and
every text of a tree, however it is spaced and grouped, has the value of the tree. -/
theorem evaluates :
    (∀ (text : List Char) (v : Bool), value? text = some v ↔
      ∃ e, Derives .disjunction (tokens text) e ∧ e.eval holdsTag = v) ∧
    (∀ (ts : List Tok) (e f : Constraint),
      Derives .disjunction ts e → Derives .disjunction ts f → e = f) ∧
    (∀ ts : List Tok, WellSpelled ts → (¬∃ e, Derives .disjunction ts e) →
      ofTokens? truth ts = none) ∧
    ∀ (e : Constraint) (text : List Char), Spells .disjunction e text →
      value? text = some (e.eval holdsTag) := by
  refine ⟨fun text v => value?_eq_some_iff, fun ts e f he hf => he.unique hf, ?_, ?_⟩
  · intro ts hts hnone
    rw [Option.eq_none_iff_forall_ne_some]
    intro v hv
    obtain ⟨e, he, -⟩ := (ofTokens?_eq_some_iff hts).1 hv
    exact hnone ⟨e, he⟩
  · intro e text h
    obtain ⟨ts, f, htokens, hf, heval⟩ := h.derives
    rw [value?_eq_some_iff, htokens.tokens_eq]
    exact ⟨f, hf, heval holdsTag⟩

/-- A chain that is grouped to the right and written without parentheses, with blanks and with both
forms of an operator, which holds only by its negation; and a list with a parenthesis that is not
closed. -/
theorem evaluates_chain :
    Spells .disjunction
      (.or (.tag "windows") (.or (.not (.and (.tag "linux") (.tag "arm64"))) (.tag "plan9")))
      "windows|| !( linux&&arm64 )\t|plan9".toList ∧
    value? "windows|| !( linux&&arm64 )\t|plan9".toList = some true ∧
    ofTokens? truth [.lParen, .word "linux", .or, .word "gc"] = none := by
  have hwindows : IsTag "windows" := ⟨by decide, by decide⟩
  have hlinux : IsTag "linux" := ⟨by decide, by decide⟩
  have harm : IsTag "arm64" := ⟨by decide, by decide⟩
  have hplan : IsTag "plan9" := ⟨by decide, by decide⟩
  have hgc : IsTag "gc" := ⟨by decide, by decide⟩
  have hgroup : Spells .operand (.and (.tag "linux") (.tag "arm64")) "( linux&&arm64 )".toList :=
    .group (.conjunction (.behind (.inl rfl) (.before (.inl rfl)
      (.and (.inr rfl) (.operand (.tag hlinux)) (.operand (.tag harm))))))
  have htext : Spells .disjunction
      (.or (.tag "windows") (.or (.not (.and (.tag "linux") (.tag "arm64"))) (.tag "plan9")))
      "windows|| !( linux&&arm64 )\t|plan9".toList :=
    .or (.inr rfl) (.conjunction (.operand (.tag hwindows)))
      (.or (.inl rfl)
        (.behind (.inr rfl) (.before (.inl rfl) (.conjunction (.operand (.not hgroup)))))
        (.conjunction (.operand (.tag hplan))))
  refine ⟨htext, evaluates.2.2.2 _ _ htext, evaluates.2.2.1 _ ?_ ?_⟩
  · intro name hname
    simp only [mem_cons, reduceCtorEq, false_or, Tok.word.injEq, not_mem_nil,
      or_false] at hname
    rcases hname with rfl | rfl
    · exact hlinux
    · exact hgc
  · rintro ⟨e, he⟩
    have hread : ofTokens? truth [.lParen, .word "linux", .or, .word "gc"] = none := by decide
    rw [ofTokens?_of_derives truth he] at hread
    cases hread

end Constraint

end Stubwright.Build
