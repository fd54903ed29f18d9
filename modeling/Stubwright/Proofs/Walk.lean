import Stubwright.Proofs.Children

/-!
# Walks through a type, node by node

What a walk does at a node depends on the node and on its children only, whatever kind of type it
is.

* `prefix_of_stop`: a walk that is stopped has seen the beginning of the whole one.
-/

namespace Stubwright

open List

/-- Induction over nodes that are still to be seen, where the first one may give way to its
children. -/
theorem TypeExpr.agendaInduction {P : List TypeExpr → Prop} (nil : P [])
    (cons : ∀ t ts, P ts → P (t.children ++ ts) → P (t :: ts)) (ts : List TypeExpr) : P ts := by
  have hcons : ∀ t ts, P ts → P (t :: ts) := by
    intro t
    induction t using TypeExpr.childrenInduction with
    | step t ih =>
      intro ts hts
      refine cons t ts hts ?_
      -- The children are put before `ts` one by one, the last one first.
      have hall : ∀ cs : List TypeExpr, (∀ c ∈ cs, c ∈ t.children) → P (cs ++ ts) := by
        intro cs hcs
        induction cs with
        | nil => exact hts
        | cons c cs ihcs =>
          exact ih c (hcs c (.head _)) _ (ihcs fun c' hc' => hcs c' (.tail _ hc'))
      exact hall t.children fun c hc => hc
  induction ts with
  | nil => exact nil
  | cons t ts ih => exact hcons t ts ih

/-! ## Walks without effects -/

namespace Visited

theorem andThen_none (v : Visited) : v.andThen .none = v := by
  rcases v with ⟨nodes, _ | _⟩ <;> simp [andThen, Visited.none]

theorem none_andThen (v : Visited) : Visited.none.andThen v = v := by
  simp [andThen, Visited.none]

theorem andThen_assoc (u v w : Visited) : (u.andThen v).andThen w = u.andThen (v.andThen w) := by
  rcases u with ⟨us, _ | _⟩ <;> rcases v with ⟨vs, _ | _⟩ <;> simp [andThen]

end Visited

section Lists

variable (visit : TypeExpr → Visit)

theorem walkTypes_append (ts us : List TypeExpr) :
    walkTypes visit (ts ++ us) = (walkTypes visit ts).andThen (walkTypes visit us) := by
  induction ts with
  | nil => exact (Visited.none_andThen _).symm
  | cons t ts ih => rw [cons_append, walkTypes, ih, walkTypes, Visited.andThen_assoc]

theorem walkTypes_singleton (t : TypeExpr) : walkTypes visit [t] = t.walk visit :=
  Visited.andThen_none _

theorem walkParams_eq (ps : List Param) :
    walkParams visit ps = walkTypes visit (ps.map (·.type)) := by
  induction ps with
  | nil => rfl
  | cons p ps ih => cases p; rw [walkParams, ih]; rfl

theorem Signature.walk_eq (s : Signature) : s.walk visit = walkTypes visit s.types := by
  cases s
  rw [Signature.types, map_append, walkTypes_append, ← walkParams_eq, ← walkParams_eq]
  rfl

theorem walkElements_eq (es : List Element) :
    walkElements visit es = walkTypes visit (es.flatMap Element.types) := by
  induction es with
  | nil => rfl
  | cons e es ih =>
    rw [walkElements, ih, flatMap_cons, walkTypes_append]
    cases e with
    | method name sig => rw [Element.walk, Signature.walk_eq]; rfl
    | embed type => rw [Element.walk, ← walkTypes_singleton visit type]; rfl

theorem walkFields_eq (fs : List Field) :
    walkFields visit fs = walkTypes visit (fs.map (·.type)) := by
  induction fs with
  | nil => rfl
  | cons f fs ih => cases f; rw [walkFields, ih]; rfl

theorem walkTerms_eq (ts : List Term) :
    walkTerms visit ts = walkTypes visit (ts.map (·.type)) := by
  induction ts with
  | nil => rfl
  | cons t ts ih => cases t; rw [walkTerms, ih]; rfl

end Lists

/-- A walk looks at the node and then, if it is to be entered, walks through the children. -/
theorem TypeExpr.walk_eq (visit : TypeExpr → Visit) (t : TypeExpr) :
    t.walk visit = match visit t with
      | .stop => ⟨[t], false⟩
      | .skip => ⟨[t], true⟩
      | .enter => Visited.andThen ⟨[t], true⟩ (walkTypes visit t.children) := by
  rw [TypeExpr.walk.eq_def]
  cases visit t with
  | stop => rfl
  | skip => rfl
  | enter =>
    refine congrArg (Visited.andThen ⟨[t], true⟩) ?_
    cases t with
    | name n => rfl
    | qualified p n => rfl
    | generic base args => rfl
    | pointer elem | slice elem | array len elem | chan dir elem | paren elem | ellipsis elem =>
      exact (walkTypes_singleton visit elem).symm
    | map key value =>
      exact congrArg (key.walk visit).andThen (walkTypes_singleton visit value).symm
    | func sig => exact sig.walk_eq visit
    | interface elems => exact walkElements_eq visit elems
    | struct fields => exact walkFields_eq visit fields
    | union terms => exact walkTerms_eq visit terms

/-! ## Walks with effects -/

section Effects

variable {m : Type → Type} [Monad m] [LawfulMonad m]

theorem andThenM_pure (x : m Bool) : andThenM x (pure true) = x := by
  have hid : (fun b => if b = true then pure true else pure false : Bool → m Bool) = pure := by
    funext b
    cases b <;> rfl
  rw [andThenM, hid, bind_pure]

theorem pure_andThenM (x : m Bool) : andThenM (pure true) x = x := by
  simp [andThenM]

theorem andThenM_assoc (x y z : m Bool) :
    andThenM (andThenM x y) z = andThenM x (andThenM y z) := by
  simp only [andThenM, bind_assoc]
  refine congrArg (x >>= ·) (funext fun b => ?_)
  cases b <;> simp

variable (visit : TypeExpr → m Visit)

theorem walkTypesM_append (ts us : List TypeExpr) :
    walkTypesM visit (ts ++ us) = andThenM (walkTypesM visit ts) (walkTypesM visit us) := by
  induction ts with
  | nil => exact (pure_andThenM _).symm
  | cons t ts ih => rw [cons_append, walkTypesM, ih, walkTypesM, andThenM_assoc]

theorem walkTypesM_singleton (t : TypeExpr) : walkTypesM visit [t] = t.walkM visit :=
  andThenM_pure _

omit [LawfulMonad m] in
theorem walkParamsM_eq (ps : List Param) :
    walkParamsM visit ps = walkTypesM visit (ps.map (·.type)) := by
  induction ps with
  | nil => rfl
  | cons p ps ih => cases p; rw [walkParamsM, ih]; rfl

theorem Signature.walkM_eq (s : Signature) : s.walkM visit = walkTypesM visit s.types := by
  cases s
  rw [Signature.types, map_append, walkTypesM_append, ← walkParamsM_eq, ← walkParamsM_eq]
  rfl

theorem walkElementsM_eq (es : List Element) :
    walkElementsM visit es = walkTypesM visit (es.flatMap Element.types) := by
  induction es with
  | nil => rfl
  | cons e es ih =>
    rw [walkElementsM, ih, flatMap_cons, walkTypesM_append]
    cases e with
    | method name sig => rw [Element.walkM, Signature.walkM_eq]; rfl
    | embed type => rw [Element.walkM, ← walkTypesM_singleton visit type]; rfl

omit [LawfulMonad m] in
theorem walkFieldsM_eq (fs : List Field) :
    walkFieldsM visit fs = walkTypesM visit (fs.map (·.type)) := by
  induction fs with
  | nil => rfl
  | cons f fs ih => cases f; rw [walkFieldsM, ih]; rfl

omit [LawfulMonad m] in
theorem walkTermsM_eq (ts : List Term) :
    walkTermsM visit ts = walkTypesM visit (ts.map (·.type)) := by
  induction ts with
  | nil => rfl
  | cons t ts ih => cases t; rw [walkTermsM, ih]; rfl

def Visit.thenM (answer : Visit) (walkChildren : m Bool) : m Bool :=
  match answer with
  | .stop => return false
  | .skip => return true
  | .enter => walkChildren

/-- A walk shows the node to the visitor and then, if it is to be entered, walks through the
children. -/
theorem TypeExpr.walkM_eq (t : TypeExpr) :
    t.walkM visit = visit t >>= fun answer => answer.thenM (walkTypesM visit t.children) := by
  rw [TypeExpr.walkM.eq_def]
  refine congrArg (visit t >>= ·) (funext fun answer => ?_)
  cases answer with
  | stop => rfl
  | skip => rfl
  | enter =>
    cases t with
    | name n => rfl
    | qualified p n => rfl
    | generic base args => rfl
    | pointer elem | slice elem | array len elem | chan dir elem | paren elem | ellipsis elem =>
      exact (walkTypesM_singleton visit elem).symm
    | map key value =>
      exact congrArg (andThenM (key.walkM visit)) (walkTypesM_singleton visit value).symm
    | func sig => exact sig.walkM_eq visit
    | interface elems => exact walkElementsM_eq visit elems
    | struct fields => exact walkFieldsM_eq visit fields
    | union terms => exact walkTermsM_eq visit terms

/-- The first of the nodes that are still to be seen is left out, gives way to its children, or ends
the walk. -/
theorem walkTypesM_cons (t : TypeExpr) (ts : List TypeExpr) :
    walkTypesM visit (t :: ts) = visit t >>= fun answer => match answer with
      | .stop => pure false
      | .skip => walkTypesM visit ts
      | .enter => walkTypesM visit (t.children ++ ts) := by
  rw [walkTypesM, TypeExpr.walkM_eq, andThenM, bind_assoc]
  refine congrArg (visit t >>= ·) (funext fun answer => ?_)
  cases answer with
  | stop => exact pure_bind _ _
  | skip => exact pure_bind _ _
  | enter => exact (walkTypesM_append visit t.children ts).symm

end Effects

/-! ## What a visitor with a state sees -/

section States

variable {σ : Type} {visit : TypeExpr → StateM σ Visit} {s s' : σ} {t : TypeExpr}
  {ts : List TypeExpr} {log log' : List (TypeExpr × Visit)} {completed completed' : Bool}
  {answer : Visit}

/-- A visitor that also writes down the nodes it is shown and what it answers. -/
def logging (visit : TypeExpr → StateM σ Visit) (t : TypeExpr) :
    StateM (List (TypeExpr × Visit) × σ) Visit := do
  let (log, s) ← get
  let (answer, s') := Id.run ((visit t).run s)
  set (log ++ [(t, answer)], s')
  return answer

/-- The nodes a visitor is shown on a walk that it begins in the state `s`, with its answers. -/
def TypeExpr.walkLog (visit : TypeExpr → StateM σ Visit) (s : σ) (t : TypeExpr) :
    List (TypeExpr × Visit) :=
  let (_, log, _) := Id.run ((t.walkM (logging visit)).run ([], s))
  log

/-- Whether a walk that a visitor begins in the state `s` is completed. -/
def TypeExpr.walkEnds (visit : TypeExpr → StateM σ Visit) (s : σ) (t : TypeExpr) : Bool :=
  Id.run ((t.walkM visit).run' s)

/-- The same visitor, but where it would stop the walk it has the node entered. -/
def unstopped (visit : TypeExpr → StateM σ Visit) (t : TypeExpr) : StateM σ Visit := do
  let answer ← visit t
  return if answer = .stop then .enter else answer

/-- The steps of a walk over the nodes that are still to be seen, with what the visitor is shown and
answers on the way. -/
inductive Walks (visit : TypeExpr → StateM σ Visit) :
    σ → List TypeExpr → List (TypeExpr × Visit) → Bool → Prop
  | nil {s : σ} : Walks visit s [] [] true
  | stop {s s' : σ} {t : TypeExpr} {ts : List TypeExpr} (h : (visit t).run s = (.stop, s')) :
      Walks visit s (t :: ts) [(t, .stop)] false
  | skip {s s' : σ} {t : TypeExpr} {ts : List TypeExpr} {log : List (TypeExpr × Visit)}
      {completed : Bool} (h : (visit t).run s = (.skip, s'))
      (hrest : Walks visit s' ts log completed) :
      Walks visit s (t :: ts) ((t, .skip) :: log) completed
  | enter {s s' : σ} {t : TypeExpr} {ts : List TypeExpr} {log : List (TypeExpr × Visit)}
      {completed : Bool} (h : (visit t).run s = (.enter, s'))
      (hrest : Walks visit s' (t.children ++ ts) log completed) :
      Walks visit s (t :: ts) ((t, .enter) :: log) completed

theorem run_logging (h : (visit t).run s = (answer, s')) :
    (logging visit t).run (log, s) = (answer, log ++ [(t, answer)], s') := by
  simp only [logging, StateT.run_bind, StateT.run_get, pure_bind, h]
  rfl

theorem run_unstopped (h : (visit t).run s = (answer, s')) :
    (unstopped visit t).run s = (if answer = .stop then .enter else answer, s') := by
  simp only [unstopped, StateT.run_bind, h]
  rfl

/-- A walk goes by these steps, whether or not the visitor writes them down. -/
theorem exists_walks_of_run (visit : TypeExpr → StateM σ Visit) (ts : List TypeExpr) :
    ∀ log s, ∃ seen completed s', Walks visit s ts seen completed ∧
      (walkTypesM visit ts).run s = (completed, s') ∧
      (walkTypesM (logging visit) ts).run (log, s) = (completed, log ++ seen, s') := by
  induction ts using TypeExpr.agendaInduction with
  | nil =>
    intro log s
    exact ⟨[], true, s, .nil, rfl, by rw [append_nil]; rfl⟩
  | cons t ts ihskip ihenter =>
    intro log s
    rw [walkTypesM_cons, walkTypesM_cons, StateT.run_bind, StateT.run_bind]
    rcases hvisit : (visit t).run s with ⟨answer, s₁⟩
    rw [run_logging hvisit]
    cases answer with
    | stop => exact ⟨[(t, .stop)], false, s₁, .stop hvisit, rfl, rfl⟩
    | skip =>
      obtain ⟨seen, completed, s', hwalks, hrun, hlog⟩ := ihskip (log ++ [(t, .skip)]) s₁
      rw [← append_cons] at hlog
      exact ⟨(t, .skip) :: seen, completed, s', .skip hvisit hwalks, hrun, hlog⟩
    | enter =>
      obtain ⟨seen, completed, s', hwalks, hrun, hlog⟩ := ihenter (log ++ [(t, .enter)]) s₁
      rw [← append_cons] at hlog
      exact ⟨(t, .enter) :: seen, completed, s', .enter hvisit hwalks, hrun, hlog⟩

theorem TypeExpr.walks_walkLog (visit : TypeExpr → StateM σ Visit) (s : σ) (t : TypeExpr) :
    Walks visit s [t] (t.walkLog visit s) (t.walkEnds visit s) := by
  obtain ⟨seen, completed, s', hwalks, hrun, hlog⟩ := exists_walks_of_run visit [t] [] s
  rw [walkTypesM_singleton] at hrun hlog
  have hseen : t.walkLog visit s = seen := by
    simp only [TypeExpr.walkLog, hlog]
    rfl
  have hends : t.walkEnds visit s = completed := by
    simp only [TypeExpr.walkEnds, StateT.run'_eq, hrun]
    rfl
  rw [hseen, hends]
  exact hwalks

namespace Walks

/-- A walk is not completed if and only if the visitor stopped it. -/
theorem stop_iff (h : Walks visit s ts log completed) :
    completed = false ↔ ∃ e ∈ log, e.2 = .stop := by
  induction h with
  | nil => simp
  | stop h => simp
  | skip h hrest ih => simp [ih]
  | enter h hrest ih => simp [ih]

theorem of_skip (h : Walks visit s (t :: ts) log completed)
    (hvisit : (visit t).run s = (.skip, s')) :
    ∃ rest, log = (t, .skip) :: rest ∧ Walks visit s' ts rest completed := by
  cases h with
  | stop h | enter h hrest => cases h.symm.trans hvisit
  | skip h hrest => cases h.symm.trans hvisit; exact ⟨_, rfl, hrest⟩

theorem of_enter (h : Walks visit s (t :: ts) log completed)
    (hvisit : (visit t).run s = (.enter, s')) :
    ∃ rest, log = (t, .enter) :: rest ∧ Walks visit s' (t.children ++ ts) rest completed := by
  cases h with
  | stop h | skip h hrest => cases h.symm.trans hvisit
  | enter h hrest => cases h.symm.trans hvisit; exact ⟨_, rfl, hrest⟩

/-- A walk that is stopped has seen the beginning of what the same visitor sees if it does not stop,
up to the node at which it stopped. -/
theorem prefix_of_stop (h : Walks visit s ts log completed) (hstop : completed = false)
    (h' : Walks (unstopped visit) s ts log' completed') :
    ∃ seen node rest, log = seen ++ [(node, .stop)] ∧ (∀ e ∈ seen, e.2 ≠ .stop) ∧
      log'.map (·.1) = seen.map (·.1) ++ node :: rest := by
  induction h generalizing log' with
  | nil => cases hstop
  | @stop s s' t ts hvisit =>
    obtain ⟨rest, rfl, -⟩ := h'.of_enter (run_unstopped hvisit)
    exact ⟨[], t, rest.map (·.1), rfl, by simp, rfl⟩
  | @skip s s' t ts log completed hvisit hrest ih =>
    obtain ⟨rest', rfl, hrest'⟩ := h'.of_skip (run_unstopped hvisit)
    obtain ⟨seen, node, rest, rfl, hseen, hlog⟩ := ih hstop hrest'
    refine ⟨(t, .skip) :: seen, node, rest, rfl, by simpa using hseen, ?_⟩
    rw [map_cons, hlog, map_cons, cons_append]
  | @enter s s' t ts log completed hvisit hrest ih =>
    obtain ⟨rest', rfl, hrest'⟩ := h'.of_enter (run_unstopped hvisit)
    obtain ⟨seen, node, rest, rfl, hseen, hlog⟩ := ih hstop hrest'
    refine ⟨(t, .enter) :: seen, node, rest, rfl, by simpa using hseen, ?_⟩
    rw [map_cons, hlog, map_cons, cons_append]

/-- A visitor without effects sees the nodes of the walk without effects. -/
theorem walkTypes_eq {visit : TypeExpr → Visit}
    (h : Walks (fun t => (pure (visit t) : StateM σ Visit)) s ts log completed) :
    log = (log.map (·.1)).map (fun t => (t, visit t)) ∧
      walkTypes visit ts = ⟨log.map (·.1), completed⟩ := by
  induction h with
  | nil => exact ⟨rfl, rfl⟩
  | @stop s s' t ts hvisit =>
    have hstop : visit t = .stop := (Prod.mk.inj hvisit).1
    rw [walkTypes, TypeExpr.walk_eq, hstop]
    exact ⟨by simp [hstop], rfl⟩
  | @skip s s' t ts log completed hvisit hrest ih =>
    have hskip : visit t = .skip := (Prod.mk.inj hvisit).1
    rw [walkTypes, TypeExpr.walk_eq, hskip, ih.2]
    refine ⟨?_, rfl⟩
    rw [map_cons, map_cons, ← ih.1, hskip]
  | @enter s s' t ts log completed hvisit hrest ih =>
    have henter : visit t = .enter := (Prod.mk.inj hvisit).1
    rw [walkTypes, TypeExpr.walk_eq, henter]
    simp only
    rw [Visited.andThen_assoc, ← walkTypes_append, ih.2]
    refine ⟨?_, rfl⟩
    rw [map_cons, map_cons, ← ih.1, henter]

end Walks

/-- The walk of a visitor without effects is the walk that lists the nodes it sees. -/
theorem TypeExpr.walkLog_pure (visit : TypeExpr → Visit) (s : σ) (t : TypeExpr) :
    t.walkLog (fun u => pure (visit u)) s = (t.walk visit).nodes.map (fun u => (u, visit u)) ∧
      t.walkEnds (fun u => pure (visit u)) s = (t.walk visit).completed := by
  obtain ⟨hlog, hwalk⟩ := (t.walks_walkLog (fun u => pure (visit u)) s).walkTypes_eq
  rw [walkTypes_singleton] at hwalk
  rw [hwalk]
  exact ⟨hlog, rfl⟩

end States

end Stubwright
