import Stubwright.Proofs.Taking

/-!
# Reading two lists of tokens in lockstep

Two lists of tokens with the same kinds and texts are read alike: a reading fails on both or succeeds
on both, with results that differ only where a text keeps what stood between its tokens.  The second
list may go on with more tokens behind the end of the first one; the first one then ends in a
semicolon, and a reading that does not take it sees no difference.

* `Parser.Lockstep`: two readings with a common precondition and related results.  Readings are put
  together with `Lockstep.bind`, `Lockstep.loop` and `Lockstep.attempt?`.
-/

namespace Stubwright

open List

variable {t : Token} {ts : List Token}

/-! ## Cursors side by side -/

/-- How the tokens of two texts correspond.  The second list of tokens goes on with `more`; `view` is
what two lengths of arrays have in common. -/
structure Pairing where
  /-- Whether a token corresponds to another one. -/
  Alike : Token → Token → Prop
  /-- The tokens behind the seam. -/
  more : List Token
  /-- What is compared of the length of an array. -/
  view : String → String
  kind_eq : ∀ {t t'}, Alike t t' → t'.kind = t.kind
  text_eq : ∀ {t t'}, Alike t t' → t'.text = t.text
  view_eq : ∀ {ts ts'}, List.Forall₂ Alike ts ts' → (∀ t ∈ ts, t.kind ≠ .semi) →
    view (Parser.writtenText ts') = view (Parser.writtenText ts)

namespace Cursor

def kind? (s : Cursor) : Option TokenKind :=
  s.rest.head?.map (·.kind)

theorem kind?_cons {s : Cursor} (h : s.rest = t :: ts) : s.kind? = some t.kind := by
  rw [kind?, h]
  rfl

/-- Two cursors stand at the same place of two corresponding lists of tokens. -/
structure Beside (P : Pairing) (s s' : Cursor) : Prop where
  rest : ∃ ts', s'.rest = ts' ++ P.more ∧ List.Forall₂ P.Alike s.rest ts'
  ended : P.more ≠ [] → ∀ t ∈ s.rest.getLast?, t.kind = .semi

/-- A cursor does not stand at the seam. -/
def Clear (P : Pairing) (s : Cursor) : Prop :=
  P.more = [] ∨ s.rest ≠ []

variable {P : Pairing} {s s' : Cursor}

/-- Away from the seam both cursors are at the end, or the next tokens correspond. -/
theorem Beside.cases (h : s.Beside P s') (hclear : s.Clear P) :
    s.rest = [] ∧ s'.rest = [] ∨
      ∃ t ts t' ts', s.rest = t :: ts ∧ s'.rest = t' :: ts' ∧ P.Alike t t' ∧
        (∀ b b', Beside P ⟨ts, b⟩ ⟨ts', b'⟩) ∧ (t.kind ≠ .semi → ∀ b, Clear P ⟨ts, b⟩) := by
  obtain ⟨⟨us, hrest, halike⟩, hended⟩ := h
  cases hs : s.rest with
  | nil =>
    rw [hs] at halike
    cases halike
    refine .inl ⟨rfl, ?_⟩
    rcases hclear with hmore | hne
    · rw [hrest, hmore, append_nil]
    · exact absurd hs hne
  | cons t ts =>
    rw [hs] at halike hended
    cases halike with
    | @cons _ t' _ us' ht htail =>
      have hlast : ∀ u ∈ ts.getLast?, u ∈ (t :: ts).getLast? := by
        intro u hu
        rw [getLast?_cons, Option.mem_def.1 hu]
        rfl
      refine .inr ⟨t, ts, t', us' ++ P.more, rfl, hrest, ht, ?_, ?_⟩
      · exact fun b b' => ⟨⟨us', rfl, htail⟩, fun hmore u hu => hended hmore u (hlast u hu)⟩
      · intro hkind b
        by_cases hmore : P.more = []
        · exact .inl hmore
        · refine .inr ?_
          rintro rfl
          exact hkind (hended hmore t (by simp))

theorem Beside.uncons {ts' : List Token} {b b' : Nat} (h : Beside P ⟨t :: ts, b⟩ ⟨ts', b'⟩) :
    ∃ t' us, ts' = t' :: us ∧ P.Alike t t' ∧ (∀ b b', Beside P ⟨ts, b⟩ ⟨us, b'⟩) ∧
      (t.kind ≠ .semi → ∀ b, Clear P ⟨ts, b⟩) := by
  rcases h.cases (.inr (by simp)) with ⟨hts, -⟩ | ⟨_, _, t', us, hts, hts', ht, htail, hclear⟩
  · cases hts
  · obtain ⟨rfl, rfl⟩ := List.cons.inj hts
    exact ⟨t', us, hts', ht, htail, hclear⟩

/-- At the seam the first list is used up, and the other one goes on. -/
theorem Beside.seam (h : s.Beside P s') (hclear : ¬s.Clear P) :
    P.more ≠ [] ∧ s.rest = [] ∧ s'.rest = P.more := by
  have hs : s.rest = [] := by
    by_contra hne
    exact hclear (.inr hne)
  obtain ⟨⟨us, hrest, halike⟩, -⟩ := h
  rw [hs] at halike
  cases halike
  exact ⟨fun hmore => hclear (.inl hmore), hs, hrest⟩

/-- The next tokens have the same kind. -/
theorem Beside.kind?_eq (h : s.Beside P s') (hclear : s.Clear P) : s'.kind? = s.kind? := by
  rcases h.cases hclear with ⟨hs, hs'⟩ | ⟨t, ts, t', ts', hs, hs', ht, -, -⟩
  · rw [kind?, kind?, hs, hs']
  · rw [kind?, kind?, hs, hs']
    exact congrArg some (P.kind_eq ht)

theorem Beside.length_eq (h : s.Beside P s') : s'.rest.length = s.rest.length + P.more.length := by
  obtain ⟨⟨us, hrest, halike⟩, -⟩ := h
  rw [hrest, length_append, halike.length_eq]

theorem clear_of_kind? {kind : TokenKind} (h : s.kind? = some kind) : s.Clear P := by
  refine .inr fun hs => ?_
  rw [kind?, hs] at h
  cases h

/-- A cursor is away from the seam, with fewer than `n` tokens left. -/
abbrev Near (P : Pairing) (n : Nat) (s : Cursor) : Prop :=
  s.Clear P ∧ s.rest.length < n

theorem Near.mono {m n : Nat} (h : s.Near P m) (hmn : m ≤ n) : s.Near P n :=
  ⟨h.1, Nat.lt_of_lt_of_le h.2 hmn⟩

end Cursor

/-! ## Readings in lockstep -/

namespace Parser

open Cursor

variable {s : Cursor}

theorem bind_of_ok {α β : Type} {p : Parser α} {f : α → Parser β} {s₁ : Cursor} {a : α}
    (h : p s = .ok (a, s₁)) : (p >>= f) s = f a s₁ := by
  change (p s >>= fun r => f r.1 r.2) = _
  rw [h]
  rfl

theorem bind_of_error {α β : Type} {p : Parser α} {f : α → Parser β} {e : Fault}
    (h : p s = .error e) : (p >>= f) s = .error e := by
  change (p s >>= fun r => f r.1 r.2) = _
  rw [h]
  rfl

/-- Where `H` holds, two readings fail together or succeed together, and then with results related by
`Q`. -/
def Lockstep {α α' : Type} (P : Pairing) (H : Cursor → Prop) (p : Parser α) (p' : Parser α')
    (Q : α → α' → Cursor → Prop) : Prop :=
  ∀ s s', s.Beside P s' → H s →
    (∃ e e', p s = .error e ∧ p' s' = .error e') ∨
      ∃ a a' s₁ s₁', p s = .ok (a, s₁) ∧ p' s' = .ok (a', s₁') ∧ s₁.Beside P s₁' ∧ Q a a' s₁

namespace Lockstep

variable {P : Pairing} {α α' β β' : Type} {p : Parser α} {p' : Parser α'} {H H' : Cursor → Prop}
  {Q Q' : α → α' → Cursor → Prop} {R : β → β' → Cursor → Prop} {f : α → Parser β}
  {f' : α' → Parser β'} {n : Nat} {kind : TokenKind} {C : Cursor → Prop}
  {step' : α' → Parser (α' ⊕ β')} {step : α → Parser (α ⊕ β)} {V : α → α' → Prop}

theorem mono (h : Lockstep P H p p' Q) (hH : ∀ s, H' s → H s)
    (hQ : ∀ a a' s, Q a a' s → Q' a a' s) : Lockstep P H' p p' Q' := by
  intro s s' hs hH'
  rcases h s s' hs (hH s hH') with herror | ⟨a, a', s₁, s₁', ha, ha', hs₁, hq⟩
  · exact .inl herror
  · exact .inr ⟨a, a', s₁, s₁', ha, ha', hs₁, hQ a a' s₁ hq⟩

theorem of_imp (h : Lockstep P H p p' Q) (hH : ∀ s, H' s → H s) : Lockstep P H' p p' Q :=
  h.mono hH fun _ _ _ hq => hq

theorem imp (h : Lockstep P H p p' Q) (hQ : ∀ a a' s, Q a a' s → Q' a a' s) :
    Lockstep P H p p' Q' :=
  h.mono (fun _ hs => hs) hQ

/-- A fact that does not depend on the cursor. -/
theorem assume {φ : Prop} (h : φ → Lockstep P H p p' Q) :
    Lockstep P (fun s => φ ∧ H s) p p' Q :=
  fun s s' hs hH => h hH.1 s s' hs hH.2

theorem pure {a : α} {a' : α'} (h : ∀ s, H s → Q a a' s) :
    Lockstep P H (pure a) (pure a') Q :=
  fun s s' hs hH => .inr ⟨a, a', s, s', rfl, rfl, hs, h s hH⟩

theorem bind (hp : Lockstep P H p p' Q) (hf : ∀ a a', Lockstep P (Q a a') (f a) (f' a') R) :
    Lockstep P H (p >>= f) (p' >>= f') R := by
  intro s s' hs hH
  rcases hp s s' hs hH with ⟨e, e', he, he'⟩ | ⟨a, a', s₁, s₁', ha, ha', hs₁, hq⟩
  · exact .inl ⟨e, e', bind_of_error he, bind_of_error he'⟩
  · rw [bind_of_ok ha, bind_of_ok ha']
    exact hf a a' s₁ s₁' hs₁ hq

theorem ite {c : Prop} [Decidable c] {q : Parser α} {q' : Parser α'} (hp : c → Lockstep P H p p' Q)
    (hq : ¬c → Lockstep P H q q' Q) :
    Lockstep P H (if c then p else q) (if c then p' else q') Q := by
  split
  · exact hp ‹_›
  · exact hq ‹_›

theorem failHere {cause cause' : Found → SyntaxError.Cause} :
    Lockstep P H (failHere cause) (failHere cause') Q := by
  have hfail : ∀ {α : Type} (cause : Found → SyntaxError.Cause) (s : Cursor),
      ∃ e, (Parser.failHere cause : Parser α) s = .error e := by
    intro α cause s
    unfold Parser.failHere
    split
    · exact ⟨_, rfl⟩
    · exact ⟨_, rfl⟩
  intro s s' _ _
  obtain ⟨e, he⟩ := hfail cause s
  obtain ⟨e', he'⟩ := hfail cause' s'
  exact .inl ⟨e, e', he, he'⟩

theorem failAt {span span' : Span} {cause cause' : SyntaxError.Cause} :
    Lockstep P H (failAt span cause) (failAt span' cause') Q :=
  fun _ _ _ _ => .inl ⟨_, _, rfl, rfl⟩

theorem failHere_bind {cause cause' : Found → SyntaxError.Cause} :
    Lockstep P H (Parser.failHere cause >>= f) (Parser.failHere cause' >>= f') R :=
  bind (Q := fun _ _ _ => False) failHere fun _ _ _ _ _ h => h.elim

/-! ### Looking ahead -/

theorem peek_bind {f : Option TokenKind → Parser β} {f' : Option TokenKind → Parser β'}
    (hclear : ∀ s, H s → s.Clear P)
    (hf : ∀ k, Lockstep P (fun s => H s ∧ s.kind? = k) (f k) (f' k) R) :
    Lockstep P H (peek >>= f) (peek >>= f') R := by
  intro s s' hs hH
  have hpeek : ∀ {β : Type} (f : Option TokenKind → Parser β) (s : Cursor),
      (peek >>= f) s = f s.kind? s := by
    intro β f s
    rw [Cursor.kind?, head?_eq_getElem?]
    rfl
  rw [hpeek, hpeek, hs.kind?_eq (hclear s hH)]
  exact hf s.kind? s s' hs ⟨hH, rfl⟩

/-- At the seam a kind of token is looked for in vain, unless the other list goes on with it. -/
theorem isAt_bind {f : Bool → Parser β} {f' : Bool → Parser β'}
    (hclear : ∀ s, H s → s.Clear P ∨ P.more.head?.map (·.kind) ≠ some kind)
    (hyes : Lockstep P (fun s => H s ∧ s.kind? = some kind) (f true) (f' true) R)
    (hno : Lockstep P (fun s => H s ∧ s.kind? ≠ some kind) (f false) (f' false) R) :
    Lockstep P H (isAt kind >>= f) (isAt kind >>= f') R := by
  intro s s' hs hH
  have hisAt : ∀ {β : Type} (f : Bool → Parser β) (s : Cursor),
      (isAt kind >>= f) s = f (s.kind? == some kind) s := by
    intro β f s
    rw [Cursor.kind?, head?_eq_getElem?]
    rfl
  have hsame : (s'.kind? == some kind) = (s.kind? == some kind) := by
    by_cases hs₀ : s.Clear P
    · rw [hs.kind?_eq hs₀]
    · have hmore := (hclear s hH).resolve_left hs₀
      obtain ⟨-, hrest, hrest'⟩ := hs.seam hs₀
      rw [Cursor.kind?, Cursor.kind?, hrest, hrest', beq_false_of_ne hmore]
      rfl
  rw [hisAt, hisAt, hsame]
  by_cases hk : s.kind? = some kind
  · rw [hk, beq_self_eq_true]
    exact hyes s s' hs ⟨hH, hk⟩
  · rw [beq_false_of_ne hk]
    exact hno s s' hs ⟨hH, hk⟩

/-- The token behind the next one, which is no semicolon. -/
theorem peekAt_one_bind {f : Option TokenKind → Parser β} {f' : Option TokenKind → Parser β'}
    (hH : ∀ s, H s → ∃ k, s.kind? = some k ∧ k ≠ .semi) (hf : ∀ k, Lockstep P H (f k) (f' k) R) :
    Lockstep P H (peekAt 1 >>= f) (peekAt 1 >>= f') R := by
  intro s s' hs hs'
  obtain ⟨k, hk, hsemi⟩ := hH s hs'
  rcases hs.cases (clear_of_kind? hk) with ⟨hrest, -⟩ | ⟨t, ts, t', ts', hrest, hrest', -, htail, hclear⟩
  · rw [Cursor.kind?, hrest] at hk
    cases hk
  · have hkind : t.kind ≠ .semi := by
      rw [kind?_cons hrest] at hk
      rwa [← Option.some.inj hk] at hsemi
    have hahead : ∀ {β : Type} (f : Option TokenKind → Parser β) {s : Cursor} {t : Token}
        {ts : List Token}, s.rest = t :: ts → (peekAt 1 >>= f) s = f (Cursor.kind? ⟨ts, 0⟩) s := by
      intro β f s t ts hrest
      rw [bind_of_ok (a := s.rest[1]?.map (·.kind)) rfl, hrest, Cursor.kind?, head?_eq_getElem?]
      rfl
    rw [hahead f hrest, hahead f' hrest', (htail 0 0).kind?_eq (hclear hkind 0)]
    exact hf _ s s' hs hs'

/-- A look ahead or back whose outcome does not matter. -/
theorem still_bind {δ : Type} {q : Parser δ} {f : δ → Parser β} {f' : δ → Parser β'}
    (hq : ∀ s, ∃ i, q s = .ok (i, s)) (hf : ∀ i i', Lockstep P H (f i) (f' i') R) :
    Lockstep P H (q >>= f) (q >>= f') R := by
  intro s s' hs hH
  obtain ⟨i, hi⟩ := hq s
  obtain ⟨i', hi'⟩ := hq s'
  rw [bind_of_ok hi, bind_of_ok hi']
  exact hf i i' s s' hs hH

theorem ahead_bind {f : Nat → Parser β} {f' : Nat → Parser β'}
    (hf : ∀ i i', Lockstep P H (f i) (f' i') R) : Lockstep P H (ahead >>= f) (ahead >>= f') R :=
  still_bind (fun _ => ⟨_, rfl⟩) hf

theorem behind_bind {f : Nat → Parser β} {f' : Nat → Parser β'}
    (hf : ∀ i i', Lockstep P H (f i) (f' i') R) : Lockstep P H (behind >>= f) (behind >>= f') R :=
  still_bind (fun _ => ⟨_, rfl⟩) hf

/-! ### Taking tokens -/

/-- The next token is taken: what is left is shorter, and away from the seam if the token is no
semicolon. -/
theorem near_tail (h : s.Near P n) (hs : s.rest = t :: ts)
    (hclear : t.kind ≠ .semi → ∀ b, Cursor.Clear P ⟨ts, b⟩) (hkind : t.kind ≠ .semi) (b : Nat) :
    Cursor.Near P (n - 1) ⟨ts, b⟩ := by
  refine ⟨hclear hkind b, ?_⟩
  have hlt := h.2
  rw [hs, length_cons] at hlt
  exact Nat.lt_sub_of_add_lt hlt

theorem next?_bind {f : Option Token → Parser β} {f' : Option Token → Parser β'}
    (hH : ∀ s, H s → s.Near P n ∧ ∃ k, s.kind? = some k ∧ k ≠ .semi)
    (hf : ∀ t t', P.Alike t t' → Lockstep P (Near P (n - 1)) (f (some t)) (f' (some t')) R) :
    Lockstep P H (next? >>= f) (next? >>= f') R := by
  intro s s' hs hs'
  obtain ⟨hnear, k, hk, hsemi⟩ := hH s hs'
  rcases hs.cases hnear.1 with ⟨hrest, -⟩ | ⟨t, ts, t', ts', hrest, hrest', ht, htail, hclear⟩
  · rw [Cursor.kind?, hrest] at hk
    cases hk
  · have hkind : t.kind ≠ .semi := by
      rw [kind?_cons hrest] at hk
      rwa [← Option.some.inj hk] at hsemi
    have hnext : ∀ {s : Cursor} {t : Token} {ts : List Token}, s.rest = t :: ts →
        next? s = .ok (some t, ⟨ts, t.stop⟩) := by
      intro s t ts hrest
      rw [next?, hrest]
    rw [bind_of_ok (hnext hrest), bind_of_ok (hnext hrest')]
    exact hf t t' ht _ _ (htail _ _) (near_tail hnear hrest hclear hkind _)

theorem expect_bind {f : Token → Parser β} {f' : Token → Parser β'} (hsemi : kind ≠ .semi)
    (hf : ∀ t t', P.Alike t t' → Lockstep P (Near P (n - 1)) (f t) (f' t') R) :
    Lockstep P (Near P n) (expect kind >>= f) (expect kind >>= f') R := by
  intro s s' hs hnear
  rcases hs.cases hnear.1 with ⟨hrest, hrest'⟩ | ⟨t, ts, t', ts', hrest, hrest', ht, htail, hclear⟩
  · have hfail : ∀ {s : Cursor}, s.rest = [] → ∃ e, expect kind s = .error e := by
      intro s hrest
      rw [expect, hrest]
      exact ⟨_, rfl⟩
    obtain ⟨e, he⟩ := hfail hrest
    obtain ⟨e', he'⟩ := hfail hrest'
    exact .inl ⟨e, e', bind_of_error he, bind_of_error he'⟩
  · have hexpect : ∀ {s : Cursor} {t : Token} {ts : List Token}, s.rest = t :: ts →
        expect kind s = if t.kind = kind then .ok (t, ⟨ts, t.stop⟩)
          else .error ⟨.expected (wanted kind) t.found, some t.span⟩ := by
      intro s t ts hrest
      rw [expect, hrest]
    have he := hexpect hrest
    have he' := hexpect hrest'
    rw [P.kind_eq ht] at he'
    by_cases hkind : t.kind = kind
    · rw [if_pos hkind] at he he'
      rw [bind_of_ok he, bind_of_ok he']
      exact hf t t' ht _ _ (htail _ _)
        (near_tail hnear hrest hclear (fun h => hsemi (hkind.symm.trans h)) _)
    · rw [if_neg hkind] at he he'
      exact .inl ⟨_, _, bind_of_error he, bind_of_error he'⟩

theorem identifier_bind {f : String → Parser β} {f' : String → Parser β'}
    (hf : ∀ name, Lockstep P (Near P (n - 1)) (f name) (f' name) R) :
    Lockstep P (Near P n) (identifier >>= f) (identifier >>= f') R := by
  have hidentifier : ∀ {β : Type} (f : String → Parser β),
      identifier >>= f = expect .ident >>= fun t => f t.text := by
    intro β f
    rw [identifier, bind_assoc]
    simp only [pure_bind]
  rw [hidentifier, hidentifier]
  refine expect_bind (by decide) fun t t' ht => ?_
  rw [P.text_eq ht]
  exact hf t.text

theorem eat_cases (kind : TokenKind) {s' : Cursor} (hs : s.Beside P s') (hnear : s.Near P n) :
    (∃ s₁ s₁', eat kind s = .ok (true, s₁) ∧ eat kind s' = .ok (true, s₁') ∧ s₁.Beside P s₁' ∧
      s₁.rest.length < n - 1 ∧ (kind ≠ .semi → s₁.Near P (n - 1))) ∨
    eat kind s = .ok (false, s) ∧ eat kind s' = .ok (false, s') ∧ s.kind? ≠ some kind := by
  rcases hs.cases hnear.1 with ⟨hrest, hrest'⟩ | ⟨t, ts, t', ts', hrest, hrest', ht, htail, hclear⟩
  · refine .inr ⟨by rw [eat, hrest], by rw [eat, hrest'], ?_⟩
    rw [Cursor.kind?, hrest]
    simp
  · have heat : ∀ {s : Cursor} {t : Token} {ts : List Token}, s.rest = t :: ts →
        eat kind s = if t.kind = kind then .ok (true, ⟨ts, t.stop⟩) else .ok (false, s) := by
      intro s t ts hrest
      rw [eat, hrest]
    have he := heat hrest
    have he' := heat hrest'
    rw [P.kind_eq ht] at he'
    by_cases hkind : t.kind = kind
    · rw [if_pos hkind] at he he'
      refine .inl ⟨_, _, he, he', htail _ _, ?_, fun hsemi => ?_⟩
      · have hlt := hnear.2
        rw [hrest, length_cons] at hlt
        exact Nat.lt_sub_of_add_lt hlt
      · exact near_tail hnear hrest hclear (fun h => hsemi (hkind.symm.trans h)) _
    · rw [if_neg hkind] at he he'
      refine .inr ⟨he, he', ?_⟩
      rw [Cursor.kind?, hrest]
      simpa using hkind

theorem eat_bind {f : Bool → Parser β} {f' : Bool → Parser β'} (hsemi : kind ≠ .semi)
    (hyes : Lockstep P (Near P (n - 1)) (f true) (f' true) R)
    (hno : Lockstep P (Near P n) (f false) (f' false) R) :
    Lockstep P (Near P n) (eat kind >>= f) (eat kind >>= f') R := by
  intro s s' hs hnear
  rcases eat_cases kind hs hnear with ⟨s₁, s₁', he, he', hs₁, -, hnear₁⟩ | ⟨he, he', -⟩
  · rw [bind_of_ok he, bind_of_ok he']
    exact hyes s₁ s₁' hs₁ (hnear₁ hsemi)
  · rw [bind_of_ok he, bind_of_ok he']
    exact hno s s' hs hnear

/-! ### Going back -/

theorem attempt?_bind {keep : α → Cursor → Bool} {keep' : α' → Cursor → Bool}
    {f : Option α → Parser β} {f' : Option α' → Parser β'} (hp : Lockstep P H p p' Q)
    (hkeep : ∀ a a' s s', s.Beside P s' → Q a a' s → keep' a' s' = keep a s)
    (hsome : ∀ a a', Lockstep P (Q a a') (f (some a)) (f' (some a')) R)
    (hnone : Lockstep P H (f none) (f' none) R) :
    Lockstep P H (attempt? p keep >>= f) (attempt? p' keep' >>= f') R := by
  intro s s' hs hH
  rcases hp s s' hs hH with ⟨e, e', he, he'⟩ | ⟨a, a', s₁, s₁', ha, ha', hs₁, hq⟩
  · have hback : attempt? p keep s = .ok (none, s) := by rw [attempt?, he]
    have hback' : attempt? p' keep' s' = .ok (none, s') := by rw [attempt?, he']
    rw [bind_of_ok hback, bind_of_ok hback']
    exact hnone s s' hs hH
  · have hthere : attempt? p keep s = .ok (if keep a s₁ then (some a, s₁) else (none, s)) := by
      rw [attempt?, ha]
    have hthere' : attempt? p' keep' s' = .ok (if keep a s₁ then (some a', s₁') else (none, s')) := by
      rw [attempt?, ha', ← hkeep a a' s₁ s₁' hs₁ hq]
    cases hk : keep a s₁ with
    | true =>
      rw [hk, if_pos rfl] at hthere hthere'
      rw [bind_of_ok hthere, bind_of_ok hthere']
      exact hsome a a' s₁ s₁' hs₁ hq
    | false =>
      rw [hk, if_neg Bool.false_ne_true] at hthere hthere'
      rw [bind_of_ok hthere, bind_of_ok hthere']
      exact hnone s s' hs hH

/-! ### Loops -/

/-- What a round of two loops comes to: either another round with less left to read, or a result. -/
inductive Round (V : α → α' → Prop) (C : Cursor → Prop) (R : β → β' → Cursor → Prop) (n : Nat) :
    α ⊕ β → α' ⊕ β' → Cursor → Prop
  | again {a : α} {a' : α'} {s : Cursor} (ha : V a a') (hs : C s) (hlt : s.rest.length < n - 1) :
      Round V C R n (.inl a) (.inl a') s
  | done {b : β} {b' : β'} {s : Cursor} (hb : R b b' s) : Round V C R n (.inr b) (.inr b') s

theorem rounds (hstep : ∀ i ≤ n, ∀ a a', V a a' →
      Lockstep P (fun s => C s ∧ s.rest.length < i) (step a) (step' a') (Round V C R i))
    {a : α} {a' : α'} (ha : V a a') {m m' : Nat} (hm : n ≤ m) (hm' : n ≤ m') :
    Lockstep P (fun s => C s ∧ s.rest.length < n) (rounds step m a) (rounds step' m' a') R := by
  induction n generalizing a a' m m' with
  | zero => exact fun s s' _ h => absurd h.2 (Nat.not_lt_zero _)
  | succ n ih =>
    obtain ⟨m, rfl⟩ := Nat.exists_eq_add_of_lt (Nat.lt_of_lt_of_le (Nat.zero_lt_succ n) hm)
    obtain ⟨m', rfl⟩ := Nat.exists_eq_add_of_lt (Nat.lt_of_lt_of_le (Nat.zero_lt_succ n) hm')
    refine (hstep (n + 1) (Nat.le_refl _) a a' ha).bind fun r r' => ?_
    intro s s' hs hround
    cases hround with
    | again ha₁ hC hlt =>
      exact ih (fun i hi => hstep i (Nat.le_succ_of_le hi)) ha₁ (by omega) (by omega) s s' hs ⟨hC, hlt⟩
    | done hb => exact .inr ⟨_, _, s, s', rfl, rfl, hs, hb⟩

theorem loop (hstep : ∀ i ≤ n, ∀ a a', V a a' →
      Lockstep P (fun s => C s ∧ s.rest.length < i) (step a) (step' a') (Round V C R i))
    {a : α} {a' : α'} (ha : V a a') :
    Lockstep P (fun s => C s ∧ s.rest.length < n) (loop step a) (loop step' a') R := by
  intro s s' hs hH
  have hle : s.rest.length + 1 ≤ n := hH.2
  have hle' : s.rest.length + 1 ≤ s'.rest.length + 1 := by
    rw [hs.length_eq]
    omega
  exact rounds (fun i hi => hstep i (Nat.le_trans hi hle)) ha (Nat.le_refl _) hle' s s' hs
    ⟨hH.1, Nat.lt_succ_self _⟩

/-- Items up to a closing mark.  The condition `C` holds before every item; an item that lets another
one follow may leave the cursor at the seam. -/
theorem itemsUntil {γ : Type} {view : α → γ} {view' : α' → γ} {close : TokenKind}
    {item : Parser (α × Bool)} {item' : Parser (α' × Bool)}
    (hclose : ∀ s, C s → s.Clear P ∨ P.more.head?.map (·.kind) ≠ some close)
    (hitem : ∀ i ≤ n, Lockstep P (fun s => (C s ∧ s.rest.length < i) ∧ s.kind? ≠ some close)
      item item' fun r r' s => r'.2 = r.2 ∧ view' r'.1 = view r.1 ∧
        (C s ∧ s.rest.length < i - 1) ∧ (r.2 = false → s.Clear P)) :
    Lockstep P (fun s => C s ∧ s.rest.length < n) (itemsUntil close item) (itemsUntil close item')
      fun as as' s => as'.map view' = as.map view ∧ s.Near P n := by
  let V : List α → List α' → Prop := fun as as' => as'.map view' = as.map view
  refine loop (V := V) (C := C) ?_ rfl
  intro i hi as as' has
  refine isAt_bind (fun s hs => hclose s hs.1) (pure fun s hs => ?_) ?_
  · exact .done ⟨has, clear_of_kind? hs.2, Nat.lt_of_lt_of_le hs.1.2 hi⟩
  · refine (hitem i hi).bind fun r r' => ?_
    obtain ⟨a, more⟩ := r
    obtain ⟨a', more'⟩ := r'
    refine assume fun hmore => assume fun ha => ?_
    obtain rfl : more' = more := hmore
    have hnext : V (as ++ [a]) (as' ++ [a']) := by
      have ha' : view' a' = view a := ha
      have has' : as'.map view' = as.map view := has
      simp only [V, map_append, map_singleton, has', ha']
    cases more' with
    | true => exact pure fun s hs => .again hnext hs.1.1 hs.1.2
    | false =>
      refine pure fun s hs => .done ⟨hnext, hs.2 rfl, ?_⟩
      have hlt := hs.1.2
      omega

end Lockstep

end Parser

end Stubwright
