import Stubwright.Proofs.Pieces
import Stubwright.Proofs.Spelling
import Stubwright.TypeExpr.Parse

/-!
# What is read from tokens

What a successful reading of a type says about the type and about the tokens it leaves.

* `sound_type`: a type that is read can be written down.
-/

namespace Stubwright

open List

open TypeExpr hiding name

variable {kind : TokenKind} {σ : List TokenKind} {ts : List Token}
  {cause : Found → SyntaxError.Cause} {t : TypeExpr}

/-! ## Pending brackets -/

/-- The closing marks that are pending behind a token, given those that are pending before it, the
innermost first; `none` for a closing mark that is not the innermost pending one. -/
def pendingAfter (pending : List TokenKind) : TokenKind → Option (List TokenKind)
  | .lParen => some (.rParen :: pending)
  | .lBrack => some (.rBrack :: pending)
  | .rParen => if pending.head? = some .rParen then some pending.tail else none
  | .rBrack => if pending.head? = some .rBrack then some pending.tail else none
  | _ => some pending

/-- The tokens behind the one that closes the outermost of the pending brackets. -/
def tokensBehind (pending : List TokenKind) (ts : List Token) : Option (List Token) :=
  match pending, ts with
  | [], ts => some ts
  | _ :: _, [] => none
  | c :: pending, t :: ts => (pendingAfter (c :: pending) t.kind).bind (tokensBehind · ts)

@[simp] theorem tokensBehind_nil (ts : List Token) : tokensBehind [] ts = some ts := by
  rw [tokensBehind]

/-- Whether the brackets among tokens nest, given the closing marks that are pending. -/
def nests (pending : List TokenKind) : List TokenKind → Bool
  | [] => pending.isEmpty
  | kind :: kinds => (pendingAfter pending kind).any (nests · kinds)

/-- A token that is in order within some brackets is so within more of them. -/
theorem pendingAfter_append {pending pending' : List TokenKind} (σ : List TokenKind)
    (h : pendingAfter pending kind = some pending') :
    pendingAfter (pending ++ σ) kind = some (pending' ++ σ) := by
  have hclose : ∀ c, (if pending.head? = some c then some pending.tail else none) = some pending' →
      (if (pending ++ σ).head? = some c then some (pending ++ σ).tail else none)
        = some (pending' ++ σ) := by
    intro c hc
    cases pending with
    | nil => cases hc
    | cons d pending =>
      by_cases hd : (d :: pending).head? = some c
      · rw [if_pos hd] at hc
        rw [← Option.some.inj hc]
        exact if_pos hd
      · rw [if_neg hd] at hc
        cases hc
  unfold pendingAfter at h ⊢
  split at h
  · cases h; rfl
  · cases h; rfl
  · exact hclose _ h
  · exact hclose _ h
  · cases h; rfl

/-- Tokens whose brackets nest leave the brackets around them pending. -/
theorem tokensBehind_append {pending : List TokenKind} {c : TokenKind} {us : List Token}
    (h : nests pending (ts.map (·.kind)) = true) :
    tokensBehind (pending ++ c :: σ) (ts ++ us) = tokensBehind (c :: σ) us := by
  induction ts generalizing pending with
  | nil =>
    rw [map_nil, nests, List.isEmpty_iff] at h
    rw [h]
    rfl
  | cons t ts ih =>
    rw [map_cons, nests, Option.any_eq_true] at h
    obtain ⟨pending', hpending, hnests⟩ := h
    have hstep := pendingAfter_append (c :: σ) hpending
    cases hσ : pending ++ c :: σ with
    | nil => simp at hσ
    | cons d σ' =>
      rw [hσ] at hstep
      rw [cons_append, tokensBehind, hstep]
      exact ih hnests

/-! ## Taking tokens -/

/-- A cursor comes to `s'` from `s` by taking tokens. -/
structure Cursor.Takes (s : Cursor) (taken : List Token) (s' : Cursor) : Prop where
  rest : s.rest = taken ++ s'.rest
  behind : s'.behind = lastStop s.behind taken

namespace Cursor.Takes

variable {s s₁ s₂ : Cursor} {as bs : List Token}

theorem nil : s.Takes [] s :=
  ⟨rfl, rfl⟩

theorem append (h : s.Takes as s₁) (h' : s₁.Takes bs s₂) : s.Takes (as ++ bs) s₂ :=
  ⟨by rw [h.rest, h'.rest, append_assoc], by rw [h'.behind, h.behind, lastStop_append]⟩

theorem lexed (h : s.Takes as s₁) (hs : Lexed s.rest) : Lexed s₁.rest := by
  rw [h.rest] at hs
  exact hs.append

theorem isRead {t : Token} (h : s.Takes (t :: as) s₁) (hs : Lexed s.rest) : t.IsRead := by
  rw [h.rest] at hs
  exact hs.isRead

end Cursor.Takes

namespace Parser

variable {α β : Type} {s s' : Cursor} {o : Option TokenKind} {b : Bool} {p : Parser α}

/-- A reading in two parts succeeds only if both do. -/
theorem bind_ok {f : α → Parser β} {b : β} (h : (p >>= f) s = .ok (b, s')) :
    ∃ a s₁, p s = .ok (a, s₁) ∧ f a s₁ = .ok (b, s') := by
  obtain ⟨⟨a, s₁⟩, hp, hf⟩ := ok_of_bind (x := p s) (f := fun r => f r.1 r.2) h
  exact ⟨a, s₁, hp, hf⟩

theorem pure_ok {a b : α} (h : (pure a : Parser α) s = .ok (b, s')) : b = a ∧ s' = s := by
  cases h
  exact ⟨rfl, rfl⟩

theorem failHere_ok {a : α} : (failHere cause : Parser α) s ≠ .ok (a, s') := by
  unfold failHere
  split <;> exact nofun

theorem peekAt_ok {n : Nat} (h : peekAt n s = .ok (o, s')) :
    o = s.rest[n]?.map (·.kind) ∧ s' = s := by
  cases h
  exact ⟨rfl, rfl⟩

theorem peek_ok (h : peek s = .ok (o, s')) :
    o = s.rest.head?.map (·.kind) ∧ s' = s := by
  rw [head?_eq_getElem?]
  exact peekAt_ok h

theorem isAt_ok (h : isAt kind s = .ok (b, s')) :
    b = (s.rest.head?.map (·.kind) == some kind) ∧ s' = s := by
  obtain ⟨o, s₁, hpeek, h⟩ := bind_ok h
  obtain ⟨rfl, rfl⟩ := peek_ok hpeek
  exact pure_ok h

theorem expect_takes {t : Token} (h : expect kind s = .ok (t, s')) :
    s.Takes [t] s' ∧ t.kind = kind := by
  unfold expect at h
  split at h
  · cases h
  · split at h
    · rename_i hrest hkind
      cases h
      exact ⟨⟨hrest, rfl⟩, hkind⟩
    · cases h

theorem expect_ok {t : Token} (h : expect kind s = .ok (t, s')) :
    s.rest = t :: s'.rest ∧ t.kind = kind :=
  ⟨(expect_takes h).1.rest, (expect_takes h).2⟩

theorem eat_takes (h : eat kind s = .ok (b, s')) :
    (b = true ∧ ∃ t, s.Takes [t] s' ∧ t.kind = kind) ∨
      (b = false ∧ s' = s ∧ s.rest.head?.map (·.kind) ≠ some kind) := by
  unfold eat at h
  split at h
  · rename_i hrest
    cases h
    exact .inr ⟨rfl, rfl, by rw [hrest]; exact nofun⟩
  · rename_i t rest hrest
    split at h
    · rename_i hkind
      cases h
      exact .inl ⟨rfl, t, ⟨hrest, rfl⟩, hkind⟩
    · rename_i hkind
      cases h
      refine .inr ⟨rfl, rfl, ?_⟩
      rw [hrest]
      simpa using hkind

theorem eat_ok (h : eat kind s = .ok (b, s')) :
    (b = true ∧ ∃ t, s.rest = t :: s'.rest ∧ t.kind = kind) ∨
      (b = false ∧ s' = s ∧ s.rest.head?.map (·.kind) ≠ some kind) :=
  (eat_takes h).imp_left fun ⟨hb, t, ht, hkind⟩ => ⟨hb, t, ht.rest, hkind⟩

theorem next?_takes {o : Option Token} (h : next? s = .ok (o, s')) :
    (o = none ∧ s.rest = [] ∧ s' = s) ∨ ∃ t, o = some t ∧ s.Takes [t] s' := by
  unfold next? at h
  split at h
  · rename_i hrest
    cases h
    exact .inl ⟨rfl, hrest, rfl⟩
  · rename_i t rest hrest
    cases h
    exact .inr ⟨t, rfl, ⟨hrest, rfl⟩⟩

/-- An attempt answers with what was read, or with nothing and leaves everything in place. -/
theorem attempt?_ok {keep : α → Cursor → Bool} {o : Option α}
    (h : attempt? p keep s = .ok (o, s')) :
    (∃ a, o = some a ∧ p s = .ok (a, s')) ∨ (o = none ∧ s' = s) := by
  unfold attempt? at h
  split at h
  · rename_i a s₁ hok
    by_cases hkeep : keep a s₁ = true
    · rw [if_pos hkeep] at h
      cases h
      exact .inl ⟨a, rfl, hok⟩
    · rw [if_neg hkeep] at h
      cases h
      exact .inr ⟨rfl, rfl⟩
  · cases h
    exact .inr ⟨rfl, rfl⟩

end Parser

/-! ## What is watched -/

/-- What is followed through a reading. -/
inductive Watch where
  /-- That the tokens come from a text, so that what is read can be written down. -/
  | form
  /-- The tokens behind the one that closes the outermost of the pending brackets. -/
  | brackets (rest : List Token)
  /-- The cursor that the reading started from. -/
  | taking (start : Cursor)

namespace Watch

/-- What is watched holds at a cursor, with closing marks pending. -/
def Holds (w : Watch) (pending : List TokenKind) (s : Cursor) : Prop :=
  match w with
  | .form => Lexed s.rest
  | .brackets rest => tokensBehind pending s.rest = some rest
  | .taking start => ∃ taken, start.Takes taken s

variable {w : Watch} {c : TokenKind} {σ σ' : List TokenKind} {s s' : Cursor} {t : Token}

/-- Taking a token within brackets. -/
theorem Holds.take (h : w.Holds (c :: σ) s) (ht : s.Takes [t] s')
    (hp : pendingAfter (c :: σ) t.kind = some σ') : w.Holds σ' s' := by
  cases w with
  | form => exact ht.lexed h
  | brackets rest =>
    change tokensBehind (c :: σ) s.rest = some rest at h
    rwa [ht.rest, singleton_append, tokensBehind, hp] at h
  | taking start =>
    obtain ⟨taken, htaken⟩ := h
    exact ⟨_, htaken.append ht⟩

theorem Holds.isRead (h : w.Holds (c :: σ) s) (ht : s.Takes [t] s') (hw : w = .form) : t.IsRead := by
  subst hw
  exact ht.isRead h

/-- Within brackets, what is watched is kept by a successful reading, and what is read satisfies `Q`
when the form is watched. -/
def Sound {α : Type} (w : Watch) (p : Parser α) (Q : α → Prop) : Prop :=
  ∀ c σ s a s', w.Holds (c :: σ) s → p s = .ok (a, s') →
    (w = .form → Q a) ∧ w.Holds (c :: σ) s'

namespace Sound

open Stubwright.Parser

variable {α β : Type} {p : Parser α} {Q Q' : α → Prop} {R : β → Prop} {step : α → Parser (α ⊕ β)}
  {f : α → Parser β} {a : α}

theorem mono (h : w.Sound p Q) (hQ : ∀ a, Q a → Q' a) : w.Sound p Q' := by
  intro c σ s a s' hw hp
  obtain ⟨hQa, hs'⟩ := h c σ s a s' hw hp
  exact ⟨fun hform => hQ a (hQa hform), hs'⟩

theorem pure (h : w = .form → Q a) : w.Sound (pure a) Q := by
  intro c σ s a' s' hw hp
  obtain ⟨rfl, rfl⟩ := pure_ok hp
  exact ⟨h, hw⟩

theorem bind (hp : w.Sound p Q)
    (hf : ∀ a, (w = .form → Q a) → w.Sound (f a) R) : w.Sound (p >>= f) R := by
  intro c σ s b s' hw h
  obtain ⟨a, s₁, hp₁, hf₁⟩ := bind_ok h
  obtain ⟨hQ, hw₁⟩ := hp c σ s a s₁ hw hp₁
  exact hf a hQ c σ s₁ b s' hw₁ hf₁

theorem ite {P : Prop} [Decidable P] {q : Parser α} (hp : w.Sound p Q) (hq : w.Sound q Q) :
    w.Sound (if P then p else q) Q := by
  split
  · exact hp
  · exact hq

theorem failHere : w.Sound (failHere cause) Q := by
  intro c σ s a s' hw hp
  exact absurd hp failHere_ok

/-- Nothing is read behind a failure. -/
theorem failHere_bind : w.Sound (Parser.failHere cause >>= f) R := by
  intro c σ s b s' hw h
  obtain ⟨a, s₁, hfail, -⟩ := bind_ok h
  exact absurd hfail failHere_ok

/-- Looking ahead. -/
theorem peekAt {n : Nat} : w.Sound (peekAt n) fun _ => True := by
  intro c σ s a s' hw hp
  cases hp
  exact ⟨fun _ => trivial, hw⟩

theorem peek : w.Sound peek fun _ => True :=
  peekAt

theorem isAt : w.Sound (isAt kind) fun _ => True := by
  intro c σ s a s' hw hp
  cases hp
  exact ⟨fun _ => trivial, hw⟩

/-- Taking a token that is no bracket. -/
theorem expect (hkind : ∀ σ, pendingAfter σ kind = some σ) :
    w.Sound (expect kind) fun t => t.kind = kind ∧ t.IsRead := by
  intro c σ s t s' hw hp
  obtain ⟨ht, rfl⟩ := expect_takes hp
  exact ⟨fun hform => ⟨rfl, hw.isRead ht hform⟩, hw.take ht (hkind _)⟩

theorem eat (hkind : ∀ σ, pendingAfter σ kind = some σ) : w.Sound (eat kind) fun _ => True := by
  intro c σ s b s' hw hp
  refine ⟨fun _ => trivial, ?_⟩
  rcases eat_takes hp with ⟨rfl, t, ht, rfl⟩ | ⟨rfl, rfl, -⟩
  · exact hw.take ht (hkind _)
  · exact hw

theorem identifier : w.Sound identifier fun name => isIdentifier name = true :=
  bind (expect fun _ => rfl) fun _ ht => pure fun hform => (ht hform).2.isIdentifier (ht hform).1

/-- An attempt leaves the tokens behind what it read, or where they were. -/
theorem attempt? {keep : α → Cursor → Bool} (hp : w.Sound p Q) :
    w.Sound (attempt? p keep) fun o => ∀ a ∈ o, Q a := by
  intro c σ s o s' hw h
  rcases attempt?_ok h with ⟨a, rfl, hok⟩ | ⟨rfl, rfl⟩
  · obtain ⟨hQ, hw₁⟩ := hp c σ s a s' hw hok
    exact ⟨fun hform b hb => Option.some.inj hb ▸ hQ hform, hw₁⟩
  · exact ⟨fun _ => nofun, hw⟩

theorem rounds
    (hstep : ∀ a, (w = .form → Q a) → w.Sound (step a) (Sum.elim Q R)) (n : Nat)
    (ha : w = .form → Q a) : w.Sound (rounds step n a) R := by
  induction n generalizing a with
  | zero => exact failHere
  | succ n ih =>
    refine bind (hstep a ha) fun r hr => ?_
    cases r with
    | inl a' => exact ih hr
    | inr b => exact pure hr

/-- A loop whose rounds keep `Q`. -/
theorem loop (ha : w = .form → Q a)
    (hstep : ∀ a, (w = .form → Q a) → w.Sound (step a) (Sum.elim Q R)) :
    w.Sound (loop step a) R := by
  intro c σ s b s' hw h
  exact rounds hstep _ ha c σ s b s' hw h

/-- Items up to a closing mark. -/
theorem itemsUntil {close : TokenKind} {item : Parser (α × Bool)}
    (hitem : w.Sound item fun r => Q r.1) :
    w.Sound (itemsUntil close item) fun items => ∀ a ∈ items, Q a := by
  refine loop (Q := fun items : List α => ∀ a ∈ items, Q a) (fun _ => nofun) fun items hitems => ?_
  refine bind isAt fun stop _ => ?_
  cases stop with
  | true => exact pure hitems
  | false =>
    refine bind hitem fun r hr => ?_
    have hall : w = .form → ∀ a ∈ items ++ [r.1], Q a := by
      intro hform a ha
      rcases mem_append.1 ha with ha | ha
      · exact hitems hform a ha
      · rw [mem_singleton.1 ha]
        exact hr hform
    obtain ⟨a, more⟩ := r
    cases more with
    | true => exact pure hall
    | false => exact pure hall

end Sound

/-- The same for a reading up to and with the innermost pending mark `close`. -/
def Closes {α : Type} (w : Watch) (close : TokenKind) (p : Parser α) (Q : α → Prop) : Prop :=
  ∀ c σ s a s', w.Holds (close :: c :: σ) s → p s = .ok (a, s') →
    (w = .form → Q a) ∧ w.Holds (c :: σ) s'

section Brackets

open Stubwright.Parser

variable {α β : Type} {p : Parser α} {Q : α → Prop} {R : β → Prop} {opening close : TokenKind}
  {f : Token → Parser β}

theorem Closes.bind {f : α → Parser β} (hp : w.Sound p Q)
    (hf : ∀ a, (w = .form → Q a) → w.Closes close (f a) R) : w.Closes close (p >>= f) R := by
  intro c σ s b s' hw h
  obtain ⟨a, s₁, hp₁, hf₁⟩ := bind_ok h
  obtain ⟨hQ, hw₁⟩ := hp _ _ s a s₁ hw hp₁
  exact hf a hQ c σ s₁ b s' hw₁ hf₁

/-- The closing mark itself. -/
theorem Closes.expect
    (hclose : ∀ σ, pendingAfter (close :: σ) close = some σ) (hf : ∀ t, w.Sound (f t) R) :
    w.Closes close (Parser.expect close >>= f) R := by
  intro c σ s b s' hw h
  obtain ⟨t, s₁, hexpect, hf₁⟩ := bind_ok h
  obtain ⟨ht, rfl⟩ := expect_takes hexpect
  exact hf t c σ s₁ b s' (hw.take ht (hclose _)) hf₁

/-- An opening mark and what follows up to the mark that closes it. -/
theorem Sound.expect_open
    (hopen : ∀ σ, pendingAfter σ opening = some (close :: σ)) (hf : ∀ t, w.Closes close (f t) R) :
    w.Sound (Parser.expect opening >>= f) R := by
  intro c σ s b s' hw h
  obtain ⟨t, s₁, hexpect, hf₁⟩ := bind_ok h
  obtain ⟨ht, rfl⟩ := expect_takes hexpect
  exact hf t c σ s₁ b s' (hw.take ht (hopen _)) hf₁

/-- An opening mark that may be missing. -/
theorem Sound.eat_open {f : Bool → Parser β}
    (hopen : ∀ σ, pendingAfter σ opening = some (close :: σ)) (htrue : w.Closes close (f true) R)
    (hfalse : w.Sound (f false) R) : w.Sound (Parser.eat opening >>= f) R := by
  intro c σ s b s' hw h
  obtain ⟨opened, s₁, heat, hf₁⟩ := bind_ok h
  rcases eat_takes heat with ⟨rfl, t, ht, rfl⟩ | ⟨rfl, rfl, -⟩
  · exact htrue c σ s₁ b s' (hw.take ht (hopen _)) hf₁
  · exact hfalse c σ s₁ b s' hw hf₁

end Brackets

end Watch

/-! ## The rules for types -/

/-- A type that can stand anywhere can stand at each place. -/
theorem TypeExpr.Formed.at_place {leaf : TypeExpr → Prop} (h : t.Formed leaf .plain)
    (place : Place) : t.Formed leaf place := by
  cases t with
  | ellipsis elem | union terms => rw [Formed] at h; cases h.1
  | _ => rw [Formed] at h ⊢; exact h

/-- A type that can be written down at a place, with references made of identifiers. -/
abbrev TypeExpr.Written (place : Place) (t : TypeExpr) : Prop :=
  t.Formed identified place

namespace Parser

variable {entries : List ParamEntry} {s s' : Cursor} {ps : List Param} {base : TypeExpr}

/-- The arguments of an instantiated type behind its name, if there are any. -/
def typeArgs (type : Parser TypeExpr) (base : TypeExpr) : Parser TypeExpr := do
  if !(← eat .lBrack) then return base
  let args ← itemsUntil .rBrack do
    let arg ← type
    return (arg, ← eat .comma)
  let _ ← expect .rBrack
  if args.isEmpty then failHere (.expected .typeArgument)
  return .generic base args

theorem typeName_eq (type : Parser TypeExpr) :
    typeName type = (do
      let first ← identifier
      if ← eat .dot then typeArgs type (.qualified first (← identifier))
      else typeArgs type (.name first)) :=
  rfl

variable {w : Watch} {type : Parser TypeExpr}

open Watch

theorem sound_typeArgs (htype : w.Sound type (Written .plain))
    (hbase : w = .form → base.isReference = true ∧ base.Written .plain) :
    w.Sound (typeArgs type base) (Written .plain) := by
  refine .eat_open (fun _ => rfl) ?_ (.pure fun hform => (hbase hform).2)
  have hitem : w.Sound (do let arg ← type; return (arg, ← eat .comma))
      fun r => r.1.Written .plain :=
    htype.bind fun arg harg => (Sound.eat fun _ => rfl).bind fun _ _ => .pure harg
  refine .bind (.itemsUntil hitem) fun args hargs => ?_
  refine .expect (fun _ => rfl) fun _ => ?_
  by_cases hempty : args.isEmpty = true
  · rw [if_pos hempty]
    exact .failHere_bind
  · rw [if_neg hempty]
    refine .pure fun hform => ?_
    rw [Written, Formed]
    exact ⟨(hbase hform).1, (hbase hform).2, by simpa using hempty, hargs hform⟩

theorem sound_typeName (htype : w.Sound type (Written .plain)) :
    w.Sound (typeName type) (Written .plain) := by
  rw [typeName_eq]
  refine Sound.identifier.bind fun first hfirst => ?_
  refine (Sound.eat fun _ => rfl).bind fun dot _ => ?_
  cases dot with
  | true =>
    refine Sound.identifier.bind fun name hname => sound_typeArgs htype fun hform => ⟨rfl, ?_⟩
    rw [Written, Formed, identified, hasIdentifiers, Bool.and_eq_true]
    exact ⟨hfirst hform, hname hform⟩
  | false =>
    refine sound_typeArgs htype fun hform => ⟨rfl, ?_⟩
    rw [Written, Formed]
    exact hfirst hform

/-- An entry of a parameter list that can be written down. -/
def ParamEntry.Formed : ParamEntry → Prop
  | .bare name => isIdentifier name = true
  | .named name type => isIdentifier name = true ∧ type.Written .param
  | .unnamed type => type.Written .param

theorem formed_groupNamed {waiting : List String}
    (h : groupNamed waiting entries = some ps) (hwaiting : ∀ n ∈ waiting, isIdentifier n = true)
    (hentries : ∀ e ∈ entries, e.Formed) :
    (∀ p ∈ ps, p.Formed identified) ∧ ∀ p ∈ ps, p.names ≠ [] := by
  induction entries generalizing waiting ps with
  | nil =>
    unfold groupNamed at h
    split at h
    · cases h
      exact ⟨nofun, nofun⟩
    · cases h
  | cons e entries ih =>
    have he := hentries e mem_cons_self
    have hrest : ∀ e ∈ entries, e.Formed := fun e he => hentries e (mem_cons_of_mem _ he)
    have hnames : ∀ name, isIdentifier name = true →
        ∀ n ∈ waiting ++ [name], isIdentifier n = true := by
      intro name hname n hn
      rcases mem_append.1 hn with hn | hn
      · exact hwaiting n hn
      · rw [mem_singleton.1 hn]
        exact hname
    cases e with
    | bare name => exact ih h (hnames name he) hrest
    | named name type =>
      rw [groupNamed, Option.map_eq_some_iff] at h
      obtain ⟨ps', hps', rfl⟩ := h
      obtain ⟨hformed, hne⟩ := ih hps' nofun hrest
      have hfirst : Param.Formed identified ⟨waiting ++ [name], type⟩ := by
        rw [Param.Formed]
        exact ⟨hnames name he.1, he.2⟩
      exact ⟨forall_mem_cons.2 ⟨hfirst, hformed⟩, forall_mem_cons.2 ⟨by simp, hne⟩⟩
    | unnamed type => cases h

theorem formed_groupUnnamed (hentries : ∀ e ∈ entries, e.Formed) :
    (∀ p ∈ groupUnnamed entries, p.Formed identified) ∧
      ∀ p ∈ groupUnnamed entries, p.names = [] := by
  induction entries with
  | nil => exact ⟨fun _ h => absurd h not_mem_nil, fun _ h => absurd h not_mem_nil⟩
  | cons e entries ih =>
    have he := hentries e mem_cons_self
    obtain ⟨hformed, hnil⟩ := ih fun e he => hentries e (mem_cons_of_mem _ he)
    have hunnamed : ∀ type, type.Written .param → (Param.unnamed type).Formed identified := by
      intro type htype
      rw [Param.unnamed, Param.Formed]
      exact ⟨(by simp), htype⟩
    have hfirst : ∃ type, groupUnnamed (e :: entries) = .unnamed type :: groupUnnamed entries ∧
        type.Written .param := by
      cases e with
      | bare name =>
        refine ⟨.name name, rfl, ?_⟩
        rw [Written, Formed]
        exact he
      | named name type => exact ⟨type, rfl, he.2⟩
      | unnamed type => exact ⟨type, rfl, he⟩
    obtain ⟨type, heq, htype⟩ := hfirst
    rw [heq]
    exact ⟨forall_mem_cons.2 ⟨hunnamed type htype, hformed⟩,
      forall_mem_cons.2 ⟨rfl, hnil⟩⟩

theorem formed_groupParams (h : groupParams entries = some ps)
    (hentries : ∀ e ∈ entries, e.Formed) : (∀ p ∈ ps, p.Formed identified) ∧ Param.Uniform ps := by
  unfold groupParams at h
  split at h
  · obtain ⟨hformed, hne⟩ := formed_groupNamed h nofun hentries
    exact ⟨hformed, .inr hne⟩
  · cases h
    obtain ⟨hformed, hnil⟩ := formed_groupUnnamed hentries
    exact ⟨hformed, .inl hnil⟩

theorem sound_paramType (htype : w.Sound type (Written .plain)) :
    w.Sound (paramType type) (Written .param) := by
  refine (Sound.eat fun _ => rfl).bind fun variadic _ => .ite ?_ ?_
  · refine htype.bind fun t ht => .pure fun hform => ?_
    rw [Written, Formed]
    exact ⟨rfl, ht hform⟩
  · exact htype.mono fun t ht => ht.at_place .param

theorem sound_paramEntry (htype : w.Sound type (Written .plain)) :
    w.Sound (paramEntry type) ParamEntry.Formed := by
  have hunnamed : w.Sound (do return .unnamed (← type)) ParamEntry.Formed :=
    htype.bind fun t ht => .pure fun hform => (ht hform).at_place .param
  have hnamed : w.Sound (do return .named (← identifier) (← paramType type))
      ParamEntry.Formed :=
    Sound.identifier.bind fun name hname => (sound_paramType htype).bind fun t ht =>
      .pure fun hform => ⟨hname hform, ht hform⟩
  refine Sound.isAt.bind fun ident _ => .ite ?_ ?_
  · exact (sound_paramType htype).bind fun t ht => .pure ht
  refine Sound.peekAt.bind fun second _ => .ite ?_ (.ite hunnamed (.ite ?_
    (.ite hnamed ?_)))
  · exact Sound.identifier.bind fun name hname => .pure hname
  · refine (htype.attempt?).bind fun found hfound => ?_
    cases found with
    | some t => exact .pure fun hform => (hfound hform t rfl).at_place .param
    | none => exact hnamed
  · intro c σ s e s' hw h
    obtain ⟨_, s₁, -, hfail⟩ := bind_ok h
    exact absurd hfail failHere_ok

theorem sound_params (htype : w.Sound type (Written .plain)) :
    w.Sound (params type) fun ps => (∀ p ∈ ps, p.Formed identified) ∧ Param.Uniform ps := by
  have hitem : w.Sound (do let entry ← paramEntry type; return (entry, ← eat .comma))
      fun r => r.1.Formed :=
    (sound_paramEntry htype).bind fun entry hentry =>
      (Sound.eat fun _ => rfl).bind fun _ _ => .pure hentry
  refine .expect_open (fun _ => rfl) fun opening => ?_
  refine .bind (.itemsUntil hitem) fun entries hentries => ?_
  refine .expect (fun _ => rfl) fun _ => ?_
  cases hgroup : groupParams entries with
  | some ps => exact .pure fun hform => formed_groupParams hgroup (hentries hform)
  | none => exact fun c σ s ps s' hw h => nomatch h

theorem sound_signature (htype : w.Sound type (Written .plain)) :
    w.Sound (signature type) (Signature.Formed identified) := by
  have hresult : ∀ ps rs, (∀ p ∈ ps, p.Formed identified) ∧ Param.Uniform ps →
      (∀ p ∈ rs, p.Formed identified) ∧ Param.Uniform rs →
      Signature.Formed identified ⟨ps, rs⟩ := by
    intro ps rs hps hrs
    rw [Signature.Formed]
    exact ⟨hps.1, hrs.1, hps.2, hrs.2⟩
  refine (sound_params htype).bind fun ps hps => Sound.peek.bind fun ahead _ =>
    .ite ?_ (.ite ?_ ?_)
  · exact (sound_params htype).bind fun rs hrs =>
      .pure fun hform => hresult ps rs (hps hform) (hrs hform)
  · refine htype.bind fun t ht => .pure fun hform => hresult ps _ (hps hform) ⟨?_, .inl ?_⟩
    · intro p hp
      rw [mem_singleton.1 hp, Param.unnamed, Param.Formed]
      exact ⟨(by simp), (ht hform).at_place .param⟩
    · intro p hp
      rw [mem_singleton.1 hp]
      rfl
  · exact .pure fun hform => hresult ps [] (hps hform) ⟨(by simp), .inl (by simp)⟩

/-- A term of a union; another round follows behind a bar. -/
def unionTerm (type : Parser TypeExpr) (terms : List Term) : Parser (List Term ⊕ List Term) := do
  let tilde ← eat .tilde
  let term : Term := ⟨tilde, ← type⟩
  return if ← eat .pipe then .inl (terms ++ [term]) else .inr (terms ++ [term])

/-- The type that the terms of a union make. -/
def ofTerms (terms : List Term) : TypeExpr :=
  match terms with
  | [⟨false, t⟩] => t
  | _ => .union terms

theorem constraint_eq (type : Parser TypeExpr) :
    constraint type = (do return ofTerms (← loop (unionTerm type) [])) := by
  unfold constraint
  congr 1
  funext terms
  split
  · rfl
  · rename_i hsingle
    unfold ofTerms
    split
    · exact absurd rfl (hsingle _)
    · rfl

theorem formed_ofTerms {terms : List Term} (hne : terms ≠ [])
    (hterms : ∀ t ∈ terms, t.Formed identified) : (ofTerms terms).Written .embed := by
  unfold ofTerms
  split
  · rename_i t
    have ht := hterms _ mem_cons_self
    rw [Term.Formed] at ht
    exact ht.at_place .embed
  · rename_i hsingle
    rw [Written, Formed]
    exact ⟨rfl, hne, hsingle, hterms⟩

theorem sound_constraint (htype : w.Sound type (Written .plain)) :
    w.Sound (constraint type) (Written .embed) := by
  have hterms : w.Sound (loop (unionTerm type) [])
      fun terms => terms ≠ [] ∧ ∀ t ∈ terms, t.Formed identified := by
    refine .loop (Q := fun terms : List Term => ∀ t ∈ terms, t.Formed identified)
      (fun _ => nofun) fun terms hterms => ?_
    refine (Sound.eat fun _ => rfl).bind fun tilde _ => htype.bind fun t ht =>
      (Sound.eat fun _ => rfl).bind fun more _ => .pure fun hform => ?_
    have hall : ∀ u ∈ terms ++ [⟨tilde, t⟩], u.Formed identified := by
      intro u hu
      rcases mem_append.1 hu with hu | hu
      · exact hterms hform u hu
      · rw [mem_singleton.1 hu, Term.Formed]
        exact ht hform
    cases more with
    | true => exact hall
    | false => exact ⟨by simp, hall⟩
  rw [constraint_eq]
  exact hterms.bind fun terms hterms =>
    .pure fun hform => formed_ofTerms (hterms hform).1 (hterms hform).2

theorem sound_element (htype : w.Sound type (Written .plain)) :
    w.Sound (element type) (Element.Formed identified) := by
  have hmethod : w.Sound (do return .method (← identifier) (← signature type))
      (Element.Formed identified) := by
    refine Sound.identifier.bind fun name hname => (sound_signature htype).bind fun sig hsig =>
      .pure fun hform => ?_
    rw [Element.Formed]
    exact ⟨hname hform, hsig hform⟩
  have hembed : w.Sound (do return .embed (← constraint type))
      (Element.Formed identified) := by
    refine (sound_constraint htype).bind fun t ht => .pure fun hform => ?_
    rw [Element.Formed]
    exact ht hform
  exact Sound.isAt.bind fun _ _ => Sound.peekAt.bind fun _ _ => .ite hmethod hembed

theorem sound_endOrClose {close : TokenKind} : w.Sound (endOrClose close) fun _ => True := by
  refine (Sound.eat fun _ => rfl).bind fun _ _ => .ite (.pure fun _ => trivial) ?_
  exact Sound.isAt.bind fun _ _ => .ite (.pure fun _ => trivial) .failHere

theorem sound_braced {α : Type} {item : Parser α} {Q : α → Prop} (hitem : w.Sound item Q) :
    w.Sound (braced item) fun items => ∀ a ∈ items, Q a := by
  have hline : w.Sound (do
      if ← eat .semi then return (none, true)
      let a ← item
      endOrClose .rBrace
      return (some a, true)) fun r : Option α × Bool => ∀ a ∈ r.1, Q a := by
    refine (Sound.eat fun _ => rfl).bind fun _ _ => .ite (.pure fun _ => nofun) ?_
    refine hitem.bind fun a ha => sound_endOrClose.bind fun _ _ => .pure fun hform b hb => ?_
    rw [← Option.some.inj hb]
    exact ha hform
  refine (Sound.expect fun _ => rfl).bind fun _ _ => ?_
  refine (Sound.itemsUntil (Q := fun o => ∀ a ∈ o, Q a) hline).bind fun items hitems => ?_
  refine (Sound.expect fun _ => rfl).bind fun _ _ => .pure fun hform a ha => ?_
  obtain ⟨o, ho, hoa⟩ := mem_filterMap.1 ha
  exact hitems hform o ho a hoa

/-- Another name of a group of fields, behind a comma. -/
def fieldName (names : List String) : Parser (List String ⊕ List String) := do
  if ← eat .comma then return .inl (names ++ [← identifier]) else return .inr names

/-- What a group of fields is read from. -/
theorem fieldType_ok {names : List String} (h : fieldType type s = .ok ((names, t), s')) :
    (names = [] ∧ type s = .ok (t, s') ∧ (s.rest.head?.map (·.kind) = some .star ∨
      s.rest.head?.map (·.kind) = some .ident)) ∨
    (∃ name s₁, identifier s = .ok (name, s₁) ∧ names = [name] ∧ type s₁ = .ok (t, s')) ∨
    ∃ first s₁ s₂, identifier s = .ok (first, s₁) ∧ loop fieldName [first] s₁ = .ok (names, s₂) ∧
      type s₂ = .ok (t, s') := by
  have hunnamed : (do return (([] : List String), ← type) : Parser _) s = .ok ((names, t), s') →
      names = [] ∧ type s = .ok (t, s') := by
    intro h
    obtain ⟨t', s₁, htype, h⟩ := bind_ok h
    cases h
    exact ⟨rfl, htype⟩
  have hnamed : (do return ([← identifier], ← type) : Parser _) s = .ok ((names, t), s') →
      ∃ name s₁, identifier s = .ok (name, s₁) ∧ names = [name] ∧ type s₁ = .ok (t, s') := by
    intro h
    obtain ⟨name, s₁, hname, h⟩ := bind_ok h
    obtain ⟨t', s₂, htype, h⟩ := bind_ok h
    cases h
    exact ⟨name, s₁, hname, rfl, htype⟩
  obtain ⟨star, s₁, hstar, h₁⟩ := bind_ok h
  obtain ⟨rfl, rfl⟩ := isAt_ok hstar
  by_cases hhead : s₁.rest.head?.map (·.kind) = some .star
  · rw [hhead] at h₁
    obtain ⟨hnames, htype⟩ := hunnamed h₁
    exact .inl ⟨hnames, htype, .inl hhead⟩
  rw [if_neg (by simpa using hhead)] at h₁
  obtain ⟨ident, s₂, hident, h₂⟩ := bind_ok h₁
  obtain ⟨rfl, rfl⟩ := isAt_ok hident
  by_cases hhead' : s₂.rest.head?.map (·.kind) = some .ident
  · rw [hhead'] at h₂
    dsimp only at h₂
    obtain ⟨second, s₃, hsecond, h₃⟩ := bind_ok h₂
    obtain ⟨-, rfl⟩ := peekAt_ok hsecond
    split at h₃
    · obtain ⟨first, s₄, hfirst, h₄⟩ := bind_ok h₃
      obtain ⟨names', s₅, hloop, h₅⟩ := bind_ok h₄
      obtain ⟨t', s₆, htype, h₆⟩ := bind_ok h₅
      cases h₆
      exact .inr (.inr ⟨first, s₄, s₅, hfirst, hloop, htype⟩)
    split at h₃
    · obtain ⟨hnames, htype⟩ := hunnamed h₃
      exact .inl ⟨hnames, htype, .inr hhead'⟩
    split at h₃
    · obtain ⟨found, s₄, hattempt, h₄⟩ := bind_ok h₃
      rcases attempt?_ok hattempt with ⟨t', rfl, htype⟩ | ⟨rfl, rfl⟩
      · cases h₄
        exact .inl ⟨rfl, htype, .inr hhead'⟩
      · exact .inr (.inl (hnamed h₄))
    · exact .inr (.inl (hnamed h₃))
  · dsimp only at h₂
    rw [if_pos (by simpa using hhead')] at h₂
    obtain ⟨_, _, hfail, -⟩ := bind_ok h₂
    exact absurd hfail failHere_ok

theorem sound_field (htype : w.Sound type (Written .plain))
    (hembed : ∀ {s t s'}, type s = .ok (t, s') → s.rest.head?.map (·.kind) = some .star ∨
      s.rest.head?.map (·.kind) = some .ident → t.isEmbeddable = true) :
    w.Sound (field type) (Field.Formed identified) := by
  have hnames : ∀ first, (w = .form → isIdentifier first = true) →
      w.Sound (loop fieldName [first])
        fun names => names ≠ [] ∧ ∀ n ∈ names, isIdentifier n = true := by
    intro first hfirst
    refine .loop (Q := fun names : List String => names ≠ [] ∧
      ∀ n ∈ names, isIdentifier n = true) ?_ fun names hnames => ?_
    · intro hform
      simpa using hfirst hform
    refine (Sound.eat fun _ => rfl).bind fun _ _ => .ite ?_ (.pure hnames)
    refine Sound.identifier.bind fun name hname => .pure fun hform => ⟨by simp, ?_⟩
    intro n hn
    rcases mem_append.1 hn with hn | hn
    · exact (hnames hform).2 n hn
    · rw [mem_singleton.1 hn]
      exact hname hform
  have hgroup : w.Sound (fieldType type) fun r => (∀ n ∈ r.1, isIdentifier n = true) ∧
      (r.1 = [] → r.2.isEmbeddable = true) ∧ r.2.Written .plain := by
    rintro c σ s ⟨names, t⟩ s' hw h
    rcases fieldType_ok h with ⟨rfl, ht, hhead⟩ | ⟨name, s₁, hname, rfl, ht⟩ |
      ⟨first, s₁, s₂, hfirst, hloop, ht⟩
    · obtain ⟨hform, hw'⟩ := htype c σ _ _ _ hw ht
      exact ⟨fun hw => ⟨(by simp), fun _ => hembed ht hhead, hform hw⟩, hw'⟩
    · obtain ⟨hident, hw₁⟩ := Sound.identifier c σ _ _ _ hw hname
      obtain ⟨hform, hw'⟩ := htype c σ _ _ _ hw₁ ht
      exact ⟨fun hw => ⟨by simpa using hident hw, (by simp), hform hw⟩, hw'⟩
    · obtain ⟨hident, hw₁⟩ := Sound.identifier c σ _ _ _ hw hfirst
      obtain ⟨hidents, hw₂⟩ := hnames first hident c σ _ _ _ hw₁ hloop
      obtain ⟨hform, hw'⟩ := htype c σ _ _ _ hw₂ ht
      exact ⟨fun hw => ⟨(hidents hw).2, fun hnil => absurd hnil (hidents hw).1, hform hw⟩, hw'⟩
  refine hgroup.bind fun r hr => ?_
  intro c σ s f s' hw h
  obtain ⟨ahead, s₁, hpeek, h₁⟩ := bind_ok h
  obtain ⟨rfl, rfl⟩ := peek_ok hpeek
  by_cases htag : isTag (s₁.rest.head?.map (·.kind)) = true
  · rw [if_pos htag] at h₁
    obtain ⟨o, s₂, hnext, h₂⟩ := bind_ok h₁
    rcases next?_takes hnext with ⟨-, hend, -⟩ | ⟨tok, rfl, ht⟩
    · rw [hend] at htag
      cases htag
    · cases h₂
      replace htag : isTag (some tok.kind) = true := by
        rwa [ht.rest] at htag
      have hneutral : ∀ σ, pendingAfter σ tok.kind = some σ := by
        rw [isTag, Bool.or_eq_true, beq_iff_eq, beq_iff_eq] at htag
        rcases htag with htag | htag <;> rw [Option.some.inj htag] <;> exact fun _ => rfl
      refine ⟨fun hform => ?_, hw.take ht (hneutral _)⟩
      rw [Field.Formed]
      refine ⟨(hr hform).1, (hr hform).2.1, (hr hform).2.2, ?_⟩
      rintro text ⟨⟩
      exact (hw.isRead ht hform).isTag htag
  · rw [if_neg htag] at h₁
    cases h₁
    refine ⟨fun hform => ?_, hw⟩
    rw [Field.Formed]
    exact ⟨(hr hform).1, (hr hform).2.1, (hr hform).2.2, (by simp)⟩

/-! ## Lengths of arrays -/

/-- The first token of a length: the bracket that closes it, or one that is part of it. -/
theorem lengthTokens_cons (depth : Nat) (t : Token) (ts : List Token) :
    lengthTokens depth (t :: ts) =
      if t.kind = .rBrack ∧ depth = 0 then .ok ([], t :: ts)
      else if t.kind = .semi then .error ⟨.expected (.mark "]") t.found, some t.span⟩
      else (lengthTokens (depthAfter depth t.kind) ts).map fun r => (t :: r.1, r.2) := by
  have htake : ∀ d, (lengthTokens d ts >>= fun r => pure (t :: r.1, r.2))
      = (lengthTokens d ts).map fun r => (t :: r.1, r.2) := by
    intro d
    rcases lengthTokens d ts with e | r <;> rfl
  rw [lengthTokens]
  split
  · rename_i hkind
    rw [hkind]
    by_cases hdepth : depth = 0
    · simp [hdepth]
    · rw [if_neg hdepth, if_neg (fun h => hdepth h.2), if_neg (by simp)]
      exact htake (depth - 1)
  · rename_i hkind
    rw [hkind, if_neg (by simp), if_neg (by simp)]
    exact htake (depth + 1)
  · rename_i hkind
    rw [hkind, if_neg (by simp), if_neg (by simp)]
    exact htake (depth + 1)
  · rename_i hkind
    rw [hkind, if_neg (by simp), if_neg (by simp)]
    exact htake (depth - 1)
  · rename_i hkind
    simp [hkind]
  · rename_i h₁ h₂ h₃ h₄ h₅
    rw [if_neg (fun h => h₁ h.1), if_neg h₅, show depthAfter depth t.kind = depth by
      unfold depthAfter; split <;> simp_all]
    exact htake depth

/-- What is taken as a length stands before a closing bracket. -/
theorem lengthTokens_ok {depth : Nat} {taken rest : List Token}
    (h : lengthTokens depth ts = .ok (taken, rest)) :
    ts = taken ++ rest ∧ spansLength depth (taken.map (·.kind)) = true ∧
      rest.head?.map (·.kind) = some .rBrack := by
  induction ts generalizing depth taken with
  | nil => cases h
  | cons t ts ih =>
    rw [lengthTokens_cons] at h
    split at h
    · rename_i hclose
      cases h
      exact ⟨rfl, by rw [hclose.2]; rfl, by simp [hclose.1]⟩
    · rename_i hinner
      split at h
      · cases h
      · rename_i hsemi
        cases hrec : lengthTokens (depthAfter depth t.kind) ts with
        | error e => rw [hrec] at h; cases h
        | ok r =>
          rw [hrec] at h
          cases h
          obtain ⟨rfl, hspans, hhead⟩ := ih hrec
          exact ⟨rfl, spansLength_cons.2 ⟨hinner, hsemi, hspans⟩, hhead⟩

/-- Within a pending bracket, every token but the one that closes it changes the depth of nesting
as `depthAfter` says. -/
theorem pendingAfter_depth {τ σ' : List TokenKind}
    (h : pendingAfter (τ ++ .rBrack :: σ) kind = some σ')
    (hinner : ¬(kind = .rBrack ∧ τ.length = 0)) :
    ∃ τ', σ' = τ' ++ .rBrack :: σ ∧ τ'.length = depthAfter τ.length kind := by
  have hclose : ∀ c, ¬(c = .rBrack ∧ τ.length = 0) →
      (if (τ ++ .rBrack :: σ).head? = some c then some (τ ++ .rBrack :: σ).tail else none) = some σ' →
      ∃ τ', σ' = τ' ++ .rBrack :: σ ∧ τ'.length = τ.length - 1 := by
    intro c hc h
    split at h
    · rename_i hhead
      cases τ with
      | nil => exact absurd ⟨(Option.some.inj hhead).symm, rfl⟩ hc
      | cons d τ =>
        cases h
        exact ⟨τ, rfl, rfl⟩
    · cases h
  unfold pendingAfter at h
  split at h
  · cases h
    exact ⟨.rParen :: τ, rfl, rfl⟩
  · cases h
    exact ⟨.rBrack :: τ, rfl, rfl⟩
  · exact hclose .rParen (by simp) h
  · exact hclose .rBrack hinner h
  · rename_i h₁ h₂ h₃ h₄
    cases h
    refine ⟨τ, rfl, ?_⟩
    unfold depthAfter
    split <;> simp_all

/-- A length that is taken within brackets ends before the bracket that closes it. -/
theorem tokensBehind_of_lengthTokens (τ : List TokenKind) {c : TokenKind}
    {taken rest behind : List Token} {close : Token}
    (h : lengthTokens τ.length ts = .ok (taken, close :: rest))
    (hb : tokensBehind (τ ++ .rBrack :: c :: σ) ts = some behind) :
    tokensBehind (c :: σ) rest = some behind := by
  induction ts generalizing τ taken with
  | nil => cases h
  | cons t ts ih =>
    obtain ⟨σ', hpending, hb'⟩ : ∃ σ', pendingAfter (τ ++ .rBrack :: c :: σ) t.kind = some σ' ∧
        tokensBehind σ' ts = some behind := by
      cases hτ : τ ++ .rBrack :: c :: σ with
      | nil => simp at hτ
      | cons d σ₀ =>
        rw [hτ, tokensBehind] at hb
        exact Option.bind_eq_some_iff.1 hb
    rw [lengthTokens_cons] at h
    split at h
    · rename_i hclose
      obtain ⟨hkind, hdepth⟩ := hclose
      obtain rfl := length_eq_zero_iff.1 hdepth
      cases h
      rw [hkind] at hpending
      cases hpending
      exact hb'
    · rename_i hinner
      split at h
      · cases h
      · obtain ⟨τ', rfl, hdepth⟩ := pendingAfter_depth hpending hinner
        rw [← hdepth] at h
        cases hrec : lengthTokens τ'.length ts with
        | error e => rw [hrec] at h; cases h
        | ok r =>
          obtain ⟨taken', rest'⟩ := r
          rw [hrec] at h
          cases h
          exact ih τ' hrec hb'

/-- The type behind an opening bracket: a slice, or an array with its length. -/
def sliceOrArray (type : Parser TypeExpr) : Parser TypeExpr := do
  if ← eat .rBrack then return .slice (← type)
  let len ← arrayLength
  return .array len (← type)

theorem arrayLength_ok {len : String} (h : arrayLength s = .ok (len, s')) :
    ∃ taken close, lengthTokens 0 s.rest = .ok (taken, close :: s'.rest) ∧
      len = writtenText taken ∧ s.Takes (taken ++ [close]) s' := by
  obtain ⟨s₁, s₂, hget, h₁⟩ := bind_ok h
  cases hget
  cases hlen : lengthTokens 0 s.rest with
  | error e => rw [hlen] at h₁; cases h₁
  | ok r =>
    obtain ⟨taken, rest⟩ := r
    rw [hlen] at h₁
    obtain ⟨_, s₃, hset, h₂⟩ := bind_ok h₁
    cases hset
    obtain ⟨close, s₄, hexpect, h₃⟩ := bind_ok h₂
    cases h₃
    have htaken : s.Takes taken ⟨rest, lastStop s.behind taken⟩ := ⟨(lengthTokens_ok hlen).1, rfl⟩
    exact ⟨taken, close, by rw [← (expect_ok hexpect).1], rfl,
      htaken.append (expect_takes hexpect).1⟩

theorem closes_sliceOrArray (htype : w.Sound type (Written .plain)) :
    w.Closes .rBrack (sliceOrArray type) (Written .plain) := by
  intro c σ s t s' hw h
  obtain ⟨closed, s₁, heat, h₁⟩ := bind_ok h
  rcases eat_takes heat with ⟨rfl, close, htake, hclose⟩ | ⟨rfl, rfl, hhead⟩
  · have hw₁ : w.Holds (c :: σ) s₁ := hw.take htake (by rw [hclose]; rfl)
    have hslice : w.Sound (do return slice (← type)) (Written .plain) := by
      refine htype.bind fun elem helem => .pure fun hform => ?_
      rw [Written, Formed]
      exact helem hform
    exact hslice c σ s₁ t s' hw₁ h₁
  · obtain ⟨len, s₂, hlen, h₂⟩ := bind_ok h₁
    obtain ⟨taken, close, htokens, rfl, htakes⟩ := arrayLength_ok hlen
    obtain ⟨heq, hspans, hclose⟩ := lengthTokens_ok htokens
    have hlength : w = .form → IsLength (writtenText taken) := by
      rintro rfl
      cases taken with
      | nil =>
        rw [heq] at hhead
        exact absurd hclose hhead
      | cons u us =>
        have hlexed : Lexed s₁.rest := hw
        rw [heq] at hlexed
        exact hlexed.isLength hspans (Option.some.inj hclose)
    have hw₂ : w.Holds (c :: σ) s₂ := by
      cases w with
      | form => exact htakes.lexed hw
      | brackets behind => exact tokensBehind_of_lengthTokens [] htokens hw
      | taking start =>
        obtain ⟨before, hbefore⟩ := hw
        exact ⟨_, hbefore.append htakes⟩
    have harray : w.Sound (do return array (writtenText taken) (← type))
        (Written .plain) := by
      refine htype.bind fun elem helem => .pure fun hform => ?_
      rw [Written, Formed]
      exact ⟨hlength hform, helem hform⟩
    exact harray c σ s₂ t s' hw₂ h₂

/-! ## Types -/

/-- Taking the next token, whose kind is known. -/
theorem next?_bind_eq {α : Type} {f : Option Token → Parser α}
    (hhead : s.rest.head?.map (·.kind) = some kind) :
    (next? >>= f) s = (expect kind >>= fun t => f (some t)) s := by
  obtain ⟨rest, behind⟩ := s
  cases rest with
  | nil => cases hhead
  | cons t rest =>
    have hexpect : expect kind ⟨t :: rest, behind⟩ = .ok (t, ⟨rest, t.stop⟩) :=
      if_pos (Option.some.inj hhead)
    change f (some t) ⟨rest, t.stop⟩
      = (expect kind ⟨t :: rest, behind⟩ >>= fun r => f (some r.1) r.2)
    rw [hexpect]
    rfl

/-- What starts with a name or a star can be embedded. -/
theorem isEmbeddable_typeArgs (hbase : base.isEmbeddable = true)
    (h : typeArgs type base s = .ok (t, s')) : t.isEmbeddable = true := by
  obtain ⟨opened, s₁, -, h₁⟩ := bind_ok h
  cases opened with
  | false =>
    obtain ⟨rfl, -⟩ := pure_ok h₁
    exact hbase
  | true =>
    obtain ⟨args, s₂, -, h₂⟩ := bind_ok h₁
    obtain ⟨close, s₃, -, h₃⟩ := bind_ok h₂
    dsimp only at h₃
    split at h₃
    · obtain ⟨_, _, hfail, -⟩ := bind_ok h₃
      exact absurd hfail failHere_ok
    · obtain ⟨rfl, -⟩ := pure_ok h₃
      rfl

theorem isEmbeddable_typeStep (h : typeStep type s = .ok (t, s'))
    (hhead : s.rest.head?.map (·.kind) = some .star ∨ s.rest.head?.map (·.kind) = some .ident) :
    t.isEmbeddable = true := by
  obtain ⟨o, s₁, hpeek, h₁⟩ := bind_ok h
  obtain ⟨rfl, rfl⟩ := peek_ok hpeek
  rcases hhead with hhead | hhead
  · rw [hhead] at h₁
    obtain ⟨_, s₂, -, h₂⟩ := bind_ok h₁
    obtain ⟨elem, s₃, -, h₃⟩ := bind_ok h₂
    obtain ⟨rfl, -⟩ := pure_ok h₃
    rfl
  · rw [hhead] at h₁
    change typeName type s₁ = .ok (t, s') at h₁
    rw [typeName_eq] at h₁
    obtain ⟨first, s₂, -, h₂⟩ := bind_ok h₁
    obtain ⟨dot, s₃, -, h₃⟩ := bind_ok h₂
    cases dot with
    | true =>
      obtain ⟨name, s₄, -, h₄⟩ := bind_ok h₃
      exact isEmbeddable_typeArgs rfl h₄
    | false => exact isEmbeddable_typeArgs rfl h₃

theorem sound_typeStep (htype : w.Sound type (Written .plain))
    (hembed : ∀ {s t s'}, type s = .ok (t, s') → s.rest.head?.map (·.kind) = some .star ∨
      s.rest.head?.map (·.kind) = some .ident → t.isEmbeddable = true) :
    w.Sound (typeStep type) (Written .plain) := by
  intro c σ s t s' hw h
  obtain ⟨o, s₁, hpeek, h₁⟩ := bind_ok h
  obtain ⟨ho, rfl⟩ := peek_ok hpeek
  split at h₁
  · exact sound_typeName htype c σ _ t s' hw h₁
  · -- pointer
    rw [next?_bind_eq ho.symm] at h₁
    refine ((Sound.expect fun _ => rfl).bind fun _ _ => htype.bind fun elem helem =>
      Sound.pure fun hform => ?_) c σ _ t s' hw h₁
    rw [Written, Formed]
    exact helem hform
  · -- slice or array
    rw [next?_bind_eq ho.symm] at h₁
    exact Sound.expect_open (fun _ => rfl) (fun _ => closes_sliceOrArray htype) c σ _ t s' hw h₁
  · -- parentheses
    rw [next?_bind_eq ho.symm] at h₁
    refine Sound.expect_open (fun _ => rfl) (fun _ => Closes.bind htype fun elem helem =>
      Closes.expect (fun _ => rfl) fun _ => Sound.pure fun hform => ?_) c σ _ t s' hw h₁
    rw [Written, Formed]
    exact helem hform
  · -- function
    rw [next?_bind_eq ho.symm] at h₁
    refine ((Sound.expect fun _ => rfl).bind fun _ _ => (sound_signature htype).bind fun sig hsig =>
      Sound.pure fun hform => ?_) c σ _ t s' hw h₁
    rw [Written, Formed]
    exact hsig hform
  · -- map
    rw [next?_bind_eq ho.symm] at h₁
    refine ((Sound.expect fun _ => rfl).bind fun _ _ => Sound.expect_open (fun _ => rfl) fun _ =>
      Closes.bind htype fun key hkey => Closes.expect (fun _ => rfl) fun _ =>
      htype.bind fun value hvalue => Sound.pure fun hform => ?_) c σ _ t s' hw h₁
    rw [Written, Formed]
    exact ⟨hkey hform, hvalue hform⟩
  · -- channel
    rw [next?_bind_eq ho.symm] at h₁
    refine ((Sound.expect fun _ => rfl).bind fun _ _ => (Sound.eat fun _ => rfl).bind fun _ _ =>
      Sound.ite (htype.bind fun elem helem => Sound.pure fun hform => ?_)
        (htype.bind fun elem helem => Sound.pure fun hform => ?_)) c σ _ t s' hw h₁
    · rw [Written, Formed]
      exact helem hform
    · rw [Written, Formed]
      exact helem hform
  · -- channel to receive from
    rw [next?_bind_eq ho.symm] at h₁
    refine ((Sound.expect fun _ => rfl).bind fun _ _ => (Sound.expect fun _ => rfl).bind fun _ _ =>
      htype.bind fun elem helem => Sound.pure fun hform => ?_) c σ _ t s' hw h₁
    rw [Written, Formed]
    exact helem hform
  · -- interface
    rw [next?_bind_eq ho.symm] at h₁
    refine ((Sound.expect fun _ => rfl).bind fun _ _ => (sound_braced (sound_element htype)).bind
      fun elems helems => Sound.pure fun hform => ?_) c σ _ t s' hw h₁
    rw [Written, Formed]
    exact helems hform
  · -- struct
    rw [next?_bind_eq ho.symm] at h₁
    refine ((Sound.expect fun _ => rfl).bind fun _ _ => (sound_braced (sound_field htype hembed)).bind
      fun fields hfields => Sound.pure fun hform => ?_) c σ _ t s' hw h₁
    rw [Written, Formed]
    exact hfields hform
  · exact absurd h₁ failHere_ok

/-- Reading a type keeps what is watched, and what is read can be written down. -/
theorem sound_typeWithin (depth : Nat) :
    w.Sound (typeWithin depth) (Written .plain) := by
  induction depth with
  | zero => exact .failHere
  | succ depth ih =>
    refine sound_typeStep ih fun {s t s'} h hhead => ?_
    cases depth with
    | zero => exact absurd h failHere_ok
    | succ depth => exact isEmbeddable_typeStep h hhead

theorem sound_type : w.Sound Parser.type (Written .plain) := by
  intro c σ s t s' hw hp
  exact sound_typeWithin _ c σ s t s' hw hp

end Parser

end Stubwright
