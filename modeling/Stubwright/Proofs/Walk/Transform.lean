import Stubwright.Proofs.Walk

/-!
# Transformations of a type, node by node

A transformation decides on a node before it goes on with the children of the node as they were,
and it puts the results in their places.

* `TypeExpr.at?`: the subtree at a position.  `TypeExpr.Rebuilt`, `TypeExpr.rebuilt_transform`: what
  stands at each position afterwards.
-/

namespace Stubwright

open List

/-! ## Transformations without effects -/

section Pure

variable (r : TypeExpr → Decision)

theorem transformTypesM_pure (ts : List TypeExpr) :
    transformTypesM (m := Id) (fun u => pure (r u)) ts = ts.map (·.transform r) := by
  induction ts with
  | nil => rfl
  | cons t ts ih => rw [transformTypesM, ih]; rfl

/-- A transformation decides on the node and then, if it is to be entered, puts what becomes of the
children in their places. -/
theorem TypeExpr.transform_eq (t : TypeExpr) :
    t.transform r = match r t with
      | .replace type => type
      | .keep => t
      | .enter => t.withChildren (t.children.map (·.transform r)) := by
  rw [TypeExpr.transform, TypeExpr.transformM_eq, transformTypesM_pure]
  cases r t <;> rfl

end Pure

/-! ## The nodes a transformation decides on -/

/-- What a visitor answers where a transformation makes this decision. -/
def Decision.visit : Decision → Visit
  | .enter => .enter
  | .keep | .replace _ => .skip

theorem walkTypes_eq_of_completed {visit : TypeExpr → Visit} {ts : List TypeExpr}
    (h : ∀ t ∈ ts, (t.walk visit).completed = true) :
    walkTypes visit ts = ⟨ts.flatMap fun t => (t.walk visit).nodes, true⟩ := by
  induction ts with
  | nil => rfl
  | cons t ts ih =>
    rw [walkTypes, ih fun u hu => h u (.tail _ hu), Visited.andThen, if_pos (h t (.head _))]
    rfl

section Offered

variable (r : TypeExpr → Decision)

/-- The nodes that a walk sees which enters where the transformation does. -/
def TypeExpr.offered (t : TypeExpr) : List TypeExpr :=
  (t.walk fun u => (r u).visit).nodes

theorem TypeExpr.completed_walk_visit (t : TypeExpr) :
    (t.walk fun u => (r u).visit).completed = true := by
  induction t using TypeExpr.childrenInduction with
  | step t ih =>
    rw [TypeExpr.walk_eq, walkTypes_eq_of_completed ih]
    cases r t <;> rfl

theorem TypeExpr.offered_eq (t : TypeExpr) :
    t.offered r = t :: if r t = .enter then t.children.flatMap (·.offered r) else [] := by
  have hchildren := walkTypes_eq_of_completed fun u (_ : u ∈ t.children) =>
    u.completed_walk_visit r
  rw [TypeExpr.offered, TypeExpr.walk_eq, hchildren]
  cases r t <;> rfl

/-- A transformation that also writes down the nodes it decides on. -/
abbrev logDecision (u : TypeExpr) : StateM (List TypeExpr) Decision := do
  modify (· ++ [u])
  return r u

end Offered

/-- A computation gives a result and adds nodes to the list it keeps. -/
def Logs {α : Type} (x : StateM (List TypeExpr) α) (nodes : List TypeExpr) (a : α) : Prop :=
  ∀ log, x.run log = (a, log ++ nodes)

namespace Logs

variable {α β γ : Type} {x : StateM (List TypeExpr) α} {y : StateM (List TypeExpr) β}
  {nodes nodes' : List TypeExpr} {a : α} {b : β}

theorem pure (a : α) : Logs (Pure.pure a) [] a := by
  intro log
  rw [append_nil]
  rfl

theorem map (f : α → β) (hx : Logs x nodes a) : Logs (do return f (← x)) nodes (f a) := by
  intro log
  rw [StateT.run_bind, hx log]
  rfl

theorem map₂ (f : α → β → γ) (hx : Logs x nodes a) (hy : Logs y nodes' b) :
    Logs (do return f (← x) (← y)) (nodes ++ nodes') (f a b) := by
  intro log
  rw [StateT.run_bind, hx log, ← append_assoc]
  change (y >>= fun b => Pure.pure (f a b)).run (log ++ nodes) = _
  rw [StateT.run_bind, hy (log ++ nodes)]
  rfl

end Logs

/-- A transformation decides on the nodes that a walk sees, in the same order. -/
theorem TypeExpr.logs_transformM (r : TypeExpr → Decision) (t : TypeExpr) :
    Logs (t.transformM (logDecision r)) (t.offered r) (t.transform r) := by
  induction t using TypeExpr.childrenInduction with
  | step t ih =>
    have hchildren : ∀ ts : List TypeExpr, (∀ c ∈ ts, c ∈ t.children) →
        Logs (transformTypesM (logDecision r) ts) (ts.flatMap (·.offered r))
          (ts.map (·.transform r)) := by
      intro ts hts
      induction ts with
      | nil => exact Logs.pure []
      | cons c ts ihts =>
        exact Logs.map₂ List.cons (ih c (hts c (.head _))) (ihts fun d hd => hts d (.tail _ hd))
    intro log
    rw [TypeExpr.transformM_eq, StateT.run_bind, TypeExpr.offered_eq, TypeExpr.transform_eq]
    change ((r t).thenM t (transformTypesM (logDecision r) t.children)).run (log ++ [t]) = _
    cases r t with
    | replace type => rfl
    | keep => rfl
    | enter =>
      rw [if_pos rfl, append_cons log t (t.children.flatMap _)]
      exact Logs.map t.withChildren (hchildren t.children fun c hc => hc) (log ++ [t])

theorem TypeExpr.transformLog_eq (r : TypeExpr → Decision) (t : TypeExpr) :
    t.transformLog r = (t.offered r, t.transform r) := by
  have hrun : (t.transformM (logDecision r)).run [] = (t.transform r, [] ++ t.offered r) :=
    t.logs_transformM r []
  simp only [TypeExpr.transformLog, hrun]
  rfl

/-! ## What stands where -/

/-- The subtree at a position, a path of indices of children from the root. -/
def TypeExpr.at? (t : TypeExpr) : List Nat → Option TypeExpr
  | [] => some t
  | i :: p => t.children[i]?.bind fun c => c.at? p

section Positions

variable (r : TypeExpr → Decision) {p : List Nat}

/-- Every node above a position is to be entered. -/
def TypeExpr.Reaches (t : TypeExpr) (p : List Nat) : Prop :=
  ∀ q, q <+: p → q ≠ p → ∃ u, t.at? q = some u ∧ r u = .enter

/-- `t'` is `t` with each topmost node that is to be replaced replaced, and with all else as it
was. -/
def TypeExpr.Rebuilt (t t' : TypeExpr) : Prop :=
  ∀ p u, t.at? p = some u → t.Reaches r p →
    match r u with
    | .replace type => t'.at? p = some type
    | .keep => t'.at? p = some u
    | .enter => ∃ types, types.length = u.children.length ∧ t'.at? p = some (u.withChildren types)

variable {r}

theorem TypeExpr.Reaches.of_cons {t c : TypeExpr} {i : Nat}
    (h : t.Reaches r (i :: p)) (hc : t.children[i]? = some c) : r t = .enter ∧ c.Reaches r p := by
  obtain ⟨u, hu, henter⟩ := h [] nil_prefix (cons_ne_nil _ _).symm
  cases hu
  refine ⟨henter, fun q hq hne => ?_⟩
  obtain ⟨u, hu, henter⟩ := h (i :: q) (prefix_cons_inj i |>.2 hq) (by simpa using hne)
  rw [TypeExpr.at?, hc] at hu
  exact ⟨u, hu, henter⟩

/-- At a position that is reached stands what becomes of the subtree that stood there. -/
theorem TypeExpr.at?_transform {t u : TypeExpr} (hu : t.at? p = some u)
    (hreaches : t.Reaches r p) : (t.transform r).at? p = some (u.transform r) := by
  induction p generalizing t with
  | nil =>
    cases hu
    rfl
  | cons i p ih =>
    obtain ⟨c, hc, hu⟩ := Option.bind_eq_some_iff.1 hu
    obtain ⟨henter, hreaches⟩ := hreaches.of_cons hc
    have hchildren : (t.transform r).children = t.children.map (·.transform r) := by
      rw [TypeExpr.transform_eq, henter]
      exact TypeExpr.children_withChildren (length_map _)
    rw [TypeExpr.at?, hchildren, getElem?_map, hc]
    exact ih hu hreaches

theorem TypeExpr.rebuilt_transform (r : TypeExpr → Decision) (t : TypeExpr) :
    t.Rebuilt r (t.transform r) := by
  intro p u hu hreaches
  rw [TypeExpr.at?_transform hu hreaches, TypeExpr.transform_eq]
  cases r u with
  | replace type => rfl
  | keep => rfl
  | enter => exact ⟨_, length_map _, rfl⟩

/-- A transformation that replaces no node it is offered changes nothing. -/
theorem TypeExpr.transform_eq_self {t : TypeExpr}
    (h : ∀ u ∈ t.offered r, ∀ type, r u ≠ .replace type) : t.transform r = t := by
  induction t using TypeExpr.childrenInduction with
  | step t ih =>
    rw [TypeExpr.offered_eq] at h
    have ht := h t (.head _)
    rw [TypeExpr.transform_eq]
    cases hr : r t with
    | replace type => exact absurd hr (ht type)
    | keep => rfl
    | enter =>
      rw [hr, if_pos rfl] at h
      have hchildren : t.children.map (·.transform r) = t.children := by
        refine (map_congr_left fun c hc => ih c hc fun u hu => ?_).trans (map_id _)
        exact h u (.tail _ (mem_flatMap.2 ⟨c, hc, hu⟩))
      rw [hchildren]
      exact t.withChildren_children

end Positions

/-! ## Transformations and walks -/

/-- How the transformations of a type and the walks through it go. -/
structure TypeExpr.Traversed (t : TypeExpr) : Prop where
  offered : ∀ r, (t.transformLog r).1 = (t.walk fun u => (r u).visit).nodes
  /-- The topmost nodes it replaces are replaced, and nothing else changes. -/
  rebuilt : ∀ r, t.Rebuilt r (t.transformLog r).2
  /-- If it replaces none of the nodes it is offered, the type is the same. -/
  unchanged : ∀ r, (∀ u ∈ (t.transformLog r).1, ∀ type, r u ≠ .replace type) →
    (t.transformLog r).2 = t
  /-- The walk of a visitor without effects lists the nodes it sees. -/
  effectless : ∀ (visit : TypeExpr → Visit) {σ : Type} (s : σ),
    t.walkLog (fun u => pure (visit u)) s = (t.walk visit).nodes.map (fun u => (u, visit u)) ∧
      t.walkEnds (fun u => pure (visit u)) s = (t.walk visit).completed
  /-- A walk is not completed if and only if the visitor stops it at some node. -/
  stopped_iff : ∀ {σ : Type} (visit : TypeExpr → StateM σ Visit) (s : σ),
    t.walkEnds visit s = false ↔ ∃ e ∈ t.walkLog visit s, e.2 = .stop
  /-- The visitor has then seen, up to that node, what it sees if it enters where it would stop. -/
  stopped : ∀ {σ : Type} (visit : TypeExpr → StateM σ Visit) (s : σ),
    t.walkEnds visit s = false → ∃ seen node rest,
      t.walkLog visit s = seen ++ [(node, .stop)] ∧ (∀ e ∈ seen, e.2 ≠ .stop) ∧
      (t.walkLog (unstopped visit) s).map (·.1) = seen.map (·.1) ++ node :: rest

/-- Transformations and walks traverse the same nodes of every type. -/
theorem TypeExpr.traversed (t : TypeExpr) : t.Traversed where
  offered r := by rw [t.transformLog_eq r]; rfl
  rebuilt r := by rw [t.transformLog_eq r]; exact t.rebuilt_transform r
  unchanged r := by rw [t.transformLog_eq r]; exact TypeExpr.transform_eq_self
  effectless visit _ s := t.walkLog_pure visit s
  stopped_iff visit s := (t.walks_walkLog visit s).stop_iff
  stopped visit s hstop :=
    (t.walks_walkLog visit s).prefix_of_stop hstop (t.walks_walkLog (unstopped visit) s)

end Stubwright
