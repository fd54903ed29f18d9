import Stubwright.Proofs.Requalify

/-!
# Qualifiers of requalified signatures

A signature that was requalified names only packages that the destination imports, from whatever
table the call starts.  So the check that a call makes at its end never finds anything, and a call
fails for one reason only: a qualifier that the file of the signature does not import.

* `error_of_requalify`: a call fails only at a qualifier that is not imported.
-/

namespace Stubwright

open List

theorem ImportTable.Grows.isSome_boundPath? {p : Program} {reserved : Names} {t t' : ImportTable}
    (h : t.Grows p reserved t') {q : String} (hq : (t.boundPath? p q).isSome) :
    (t'.boundPath? p q).isSome := by
  obtain ⟨adds, heq, -⟩ := h.exists_append
  rw [boundPath?, Option.isSome_map, find?_isSome] at hq ⊢
  obtain ⟨e, he, hbound⟩ := hq
  exact ⟨e, heq ▸ mem_append_left adds he, hbound⟩

namespace Program

variable {p : Program} {dest origin : Scope} {t t' : ImportTable} {sig : Signature} {l : TypeExpr}

def QualifierBound (p : Program) (t : ImportTable) (l : TypeExpr) : Prop :=
  ∀ q name, l = .qualified q name → (t.boundPath? p q).isSome

theorem QualifierBound.mono {reserved : Names} (h : QualifierBound p t l)
    (hg : t.Grows p reserved t') : QualifierBound p t' l :=
  fun q name hl => hg.isSome_boundPath? (h q name hl)

/-- The step at one reference leaves a qualifier that is bound, or fails at one that its file does
not import. -/
theorem run_requalifyReference_bound (dest origin : Scope)
    (hl : l.isReference = true) (t : ImportTable) :
    ∃ t', t.Grows p dest.package.declaredNames t' ∧
      ((∃ l', (p.requalifyReference dest origin l).run t = (.ok l', t') ∧ QualifierBound p t' l') ∨
        ∃ q file, (p.requalifyReference dest origin l).run t
          = (.error (.unresolvedQualifier q file), t')) := by
  rcases hden : p.denotation? origin l with _ | ⟨_ | path, name⟩
  · refine ⟨t, .refl, ?_⟩
    cases l with
    | name n =>
      rcases run_requalifyReference_unknown dest t hl hden with h | ⟨e, h⟩
      · exact .inl ⟨_, h, fun q name hq => by cases hq⟩
      · simp only [denotation?] at hden
        split at hden
        · cases hden
        · cases hden
        · rename_i hunknown
          simp only [requalifyReference, decideReference, requalifyNode, hunknown] at h
          cases h
    | qualified package n =>
      have hq : p.qualifierPath? origin.file package = none := by simpa [denotation?] using hden
      refine .inr ⟨package, origin.file.path, ?_⟩
      simp only [requalifyReference, decideReference, requalifyNode, hq]
      rfl
    | _ => cases hl
  · obtain ⟨rfl, hrun⟩ := run_requalifyReference_predeclared dest t hden
    exact ⟨t, .refl, .inl ⟨_, hrun, fun q name hq => by cases hq⟩⟩
  · obtain ⟨l', t', hrun, hw⟩ := run_requalifyReference_declared dest t hden
    obtain ⟨hgrows, hplaced, -⟩ := hw.spec
    refine ⟨t', hgrows, .inl ⟨l', hrun, ?_⟩⟩
    rintro q n rfl
    have hbecame : Became p dest origin t' l (.qualified q n) := by
      rw [Became, hden]
      exact hplaced
    exact hbecame.isSome_boundPath? (by rw [hden]; rfl)

/-- A pass over references leaves only qualifiers that are bound, or fails at one that its file does
not import. -/
theorem run_requalifyReferences_bound (p : Program) (dest origin : Scope) (refs : List TypeExpr)
    (hrefs : ∀ l ∈ refs, l.isReference = true) (t : ImportTable) :
    ∃ t', t.Grows p dest.package.declaredNames t' ∧
      ((∃ refs', (refs.mapM (p.requalifyReference dest origin)).run t = (.ok refs', t') ∧
          ∀ l ∈ refs', QualifierBound p t' l) ∨
        ∃ q file, (refs.mapM (p.requalifyReference dest origin)).run t
          = (.error (.unresolvedQualifier q file), t')) := by
  induction refs generalizing t with
  | nil => exact ⟨t, .refl, .inl ⟨[], rfl, by simp⟩⟩
  | cons l refs ih =>
    obtain ⟨t₁, hg₁, hstep⟩ := run_requalifyReference_bound (p := p) dest origin
      (hrefs l mem_cons_self) t
    rw [mapM_cons, run_bind_exceptState]
    rcases hstep with ⟨l', hrun, hbound⟩ | ⟨q, file, hrun⟩
    · obtain ⟨t₂, hg₂, hrest⟩ := ih (fun l hl => hrefs l (mem_cons_of_mem _ hl)) t₁
      refine ⟨t₂, hg₁.trans hg₂, ?_⟩
      simp only [hrun]
      rw [run_bind_exceptState]
      rcases hrest with ⟨refs', hrun', hall⟩ | ⟨q, file, hrun'⟩
      · simp only [hrun']
        refine .inl ⟨l' :: refs', rfl, ?_⟩
        intro x hx
        rcases mem_cons.1 hx with rfl | hx
        · exact hbound.mono hg₂
        · exact hall x hx
      · simp only [hrun']
        exact .inr ⟨q, file, rfl⟩
    · simp only [hrun]
      exact ⟨t₁, hg₁, .inr ⟨q, file, rfl⟩⟩

theorem unboundQualifier?_eq_none_of_forall
    (h : ∀ l ∈ sig.references, QualifierBound p t l) : p.unboundQualifier? t sig = none := by
  rw [unboundQualifier?, findSome?_eq_none_iff]
  intro l hl
  split
  · have hsome := h _ hl _ _ rfl
    simp [Option.isSome_iff_ne_none.1 hsome]
  · rfl

/-- A transformation either leaves every qualifier bound or fails at a qualifier that the file of the
signature does not import. -/
theorem run_transformM_bound (p : Program) (dest origin : Scope) (sig : Signature)
    (t : ImportTable) :
    (∃ sig' t', (sig.transformM (p.requalifyNode dest origin)).run t = (.ok sig', t') ∧
        p.unboundQualifier? t' sig' = none) ∨
      ∃ q file t', (sig.transformM (p.requalifyNode dest origin)).run t
        = (.error (.unresolvedQualifier q file), t') := by
  obtain ⟨t', -, hpass⟩ := run_requalifyReferences_bound p dest origin sig.references
    (fun l hl => isReference_of_mem_references hl) t
  have hsim := sig.rebuilds_transformM (onReferences_requalifyNode p dest origin)
  rcases hsim.run_cases t with ⟨sig', t₁, htree, hrefs, -⟩ | ⟨e, t₁, htree, hrefs⟩
  · rcases hpass with ⟨refs', hrun, hall⟩ | ⟨q, file, hrun⟩
    · obtain ⟨hrefs', rfl⟩ := Prod.mk.inj (hrefs.symm.trans hrun)
      refine .inl ⟨sig', t₁, htree, unboundQualifier?_eq_none_of_forall ?_⟩
      rw [Except.ok.inj hrefs']
      exact hall
    · cases (Prod.mk.inj (hrefs.symm.trans hrun)).1
  · rcases hpass with ⟨refs', hrun, -⟩ | ⟨q, file, hrun⟩
    · cases (Prod.mk.inj (hrefs.symm.trans hrun)).1
    · obtain ⟨he, rfl⟩ := Prod.mk.inj (hrefs.symm.trans hrun)
      rw [Except.error.inj he] at htree
      exact .inr ⟨q, file, t₁, htree⟩

/-- After a transformation that succeeded every qualifier is bound. -/
theorem unboundQualifier?_of_transformM {sig' : Signature}
    (h : (sig.transformM (p.requalifyNode dest origin)).run t = (.ok sig', t')) :
    p.unboundQualifier? t' sig' = none := by
  rcases run_transformM_bound p dest origin sig t with ⟨sig₁, t₁, hrun, hbound⟩ | ⟨q, file, t₁, hrun⟩
  · obtain ⟨hsig, rfl⟩ := Prod.mk.inj (hrun.symm.trans h)
    rw [← Except.ok.inj hsig]
    exact hbound
  · cases (Prod.mk.inj (hrun.symm.trans h)).1

/-- A call fails only at a qualifier that the file of the signature does not import. -/
theorem error_of_requalify {e : StubError}
    (h : (p.requalify dest origin sig).run t = (.error e, t')) :
    ∃ q file, e = .unresolvedQualifier q file := by
  rw [requalify, run_bind_exceptState] at h
  rcases run_transformM_bound p dest origin sig t with ⟨sig', t₁, hrun, hbound⟩ | ⟨q, file, t₁, hrun⟩
  · have hget : (get : Importing ImportTable).run t₁ = (.ok t₁, t₁) := rfl
    simp only [hrun, run_bind_exceptState, hget, hbound] at h
    cases (Prod.mk.inj h).1
  · simp only [hrun] at h
    exact ⟨q, file, (Except.error.inj (Prod.mk.inj h).1).symm⟩

end Program

end Stubwright
