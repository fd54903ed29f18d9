import Stubwright.Proofs.Reading
import Stubwright.SourceFile.Parse

/-!
# Which tokens a reading takes

A successful reading of tokens that come from a text takes the next few of them, and the cursor then
stands behind the last of them.

* `Parser.Reads`: the tokens that a reading takes and its result are related.  Readings are put
  together with `Reads.bind` and `Reads.loop`; the rules for types come in by `Reads.of_sound`.
-/

namespace Stubwright

namespace Parser

variable {α β : Type} {s s' : Cursor}

/-- A successful reading takes tokens, which are related to its result. -/
def Reads (p : Parser α) (R : List Token → α → Prop) : Prop :=
  ∀ s a s', Lexed s.rest → p s = .ok (a, s') → ∃ taken, s.Takes taken s' ∧ R taken a

namespace Reads

variable {p : Parser α} {R R' : List Token → α → Prop} {S : List Token → β → Prop}
  {kind : TokenKind} {cause : Found → SyntaxError.Cause} {step : α → Parser (α ⊕ β)}
  {f : α → Parser β} {a : α} {Q : α → Prop}

/-- What is read whatever is watched. -/
theorem of_sound (h : ∀ w : Watch, w.Sound p Q) : Reads p fun _ a => Q a := by
  intro s a s' hs hp
  obtain ⟨hQ, -⟩ := h .form .rBrack [] s a s' hs hp
  obtain ⟨-, taken, htaken⟩ := h (.taking s) .rBrack [] s a s' ⟨[], .nil⟩ hp
  exact ⟨taken, htaken, hQ rfl⟩

theorem mono (h : Reads p R) (hR : ∀ ts a, R ts a → R' ts a) : Reads p R' := by
  intro s a s' hs hp
  obtain ⟨taken, htaken, ha⟩ := h s a s' hs hp
  exact ⟨taken, htaken, hR taken a ha⟩

theorem pure (h : R [] a) : Reads (pure a) R := by
  intro s b s' hs hp
  obtain ⟨rfl, rfl⟩ := pure_ok hp
  exact ⟨[], .nil, h⟩

theorem bind (hp : Reads p R)
    (hf : ∀ ts a, R ts a → Reads (f a) fun us b => S (ts ++ us) b) : Reads (p >>= f) S := by
  intro s b s' hs h
  obtain ⟨a, s₁, hp₁, hf₁⟩ := bind_ok h
  obtain ⟨ts, hts, ha⟩ := hp s a s₁ hs hp₁
  obtain ⟨us, hus, hb⟩ := hf ts a ha s₁ b s' (hts.lexed hs) hf₁
  exact ⟨ts ++ us, hts.append hus, hb⟩

theorem ite {P : Prop} [Decidable P] {q : Parser α} (hp : P → Reads p R) (hq : ¬P → Reads q R) :
    Reads (if P then p else q) R := by
  split
  · exact hp ‹_›
  · exact hq ‹_›

theorem failHere : Reads (failHere cause) R := by
  intro s a s' hs hp
  exact absurd hp failHere_ok

theorem failHere_bind :
    Reads (Parser.failHere cause >>= f) S := by
  intro s b s' hs h
  obtain ⟨a, s₁, hfail, -⟩ := bind_ok h
  exact absurd hfail failHere_ok

/-- Looking around takes nothing. -/
theorem of_still (h : ∀ s a s', p s = .ok (a, s') → s' = s) : Reads p fun ts _ => ts = [] := by
  intro s a s' hs hp
  obtain rfl := h s a s' hp
  exact ⟨[], .nil, rfl⟩

theorem peekAt {n : Nat} : Reads (peekAt n) fun ts _ => ts = [] :=
  of_still fun _ _ _ h => (peekAt_ok h).2

theorem isAt : Reads (isAt kind) fun ts _ => ts = [] :=
  of_still fun _ _ _ h => (isAt_ok h).2

theorem atEnd : Reads atEnd fun ts _ => ts = [] :=
  of_still fun _ _ _ h => by cases h; rfl

theorem ahead : Reads ahead fun ts _ => ts = [] :=
  of_still fun _ _ _ h => by cases h; rfl

theorem expect :
    Reads (expect kind) fun ts t => ts = [t] ∧ t.kind = kind ∧ t.IsRead := by
  intro s t s' hs h
  obtain ⟨htakes, hkind⟩ := expect_takes h
  exact ⟨[t], htakes, rfl, hkind, htakes.isRead hs⟩

theorem identifier : Reads identifier fun ts name =>
    ∃ t, ts = [t] ∧ t.kind = .ident ∧ name = t.text ∧ isIdentifier t.text = true := by
  refine expect.bind fun ts t ht => pure ⟨t, ?_, ht.2.1, rfl, ht.2.2.isIdentifier ht.2.1⟩
  rw [List.append_nil, ht.1]

theorem eat : Reads (eat kind) fun ts b =>
    (b = true ∧ ∃ t, ts = [t] ∧ t.kind = kind) ∨ (b = false ∧ ts = []) := by
  intro s b s' hs h
  rcases eat_takes h with ⟨rfl, t, htakes, hkind⟩ | ⟨rfl, rfl, -⟩
  · exact ⟨[t], htakes, .inl ⟨rfl, t, rfl, hkind⟩⟩
  · exact ⟨[], .nil, .inr ⟨rfl, rfl⟩⟩

theorem attempt? {keep : α → Cursor → Bool} (hp : Reads p fun _ a => Q a) :
    Reads (attempt? p keep) fun _ o => ∀ a ∈ o, Q a := by
  intro s o s' hs h
  rcases attempt?_ok h with ⟨a, rfl, hok⟩ | ⟨rfl, rfl⟩
  · obtain ⟨taken, htaken, ha⟩ := hp s a s' hs hok
    exact ⟨taken, htaken, fun b hb => Option.some.inj hb ▸ ha⟩
  · exact ⟨[], .nil, by simp⟩

/-- A loop whose rounds keep the relation `R` between what has been taken and the state. -/
theorem rounds
    (hstep : ∀ ts a, R ts a → Reads (step a) fun us r => Sum.elim (R (ts ++ us)) (S (ts ++ us)) r)
    (n : Nat) {ts : List Token} (ha : R ts a) :
    Reads (rounds step n a) fun us b => S (ts ++ us) b := by
  induction n generalizing ts a with
  | zero => exact failHere
  | succ n ih =>
    refine (hstep ts a ha).bind fun us r hr => ?_
    simp only [← List.append_assoc]
    cases r with
    | inl a' => exact ih hr
    | inr b =>
      refine pure ?_
      rw [List.append_nil]
      exact hr

theorem loop (ha : R [] a)
    (hstep : ∀ ts a, R ts a → Reads (step a) fun us r => Sum.elim (R (ts ++ us)) (S (ts ++ us)) r) :
    Reads (loop step a) S := by
  intro s b s' hs h
  exact rounds hstep _ ha s b s' hs h

end Reads

end Parser

end Stubwright
