import Stubwright.Proofs.Implement
import Stubwright.Proofs.ImportEdits

/-!
# Internal errors do not occur

Implementing an interface has two checks that should never find anything: that the stubs use only
qualifiers that their file imports, and that the edits which add imports can be carried out.

* `Program.isInternal_methodSet`: listing methods fails only for reasons that lie in the program.
-/

namespace Stubwright

namespace Program

variable {p : Program} {depth : Nat} {decl : Declared} {e : StubError} {types : List Embedded}
  {fresh : List String} {set : MethodSet} {r : TypeRef}

/-! ## Method sets -/

theorem isInternal_declaredMethods (h : p.declaredMethods depth decl = .error e) :
    e.isInternal = false := by
  rw [declaredMethods] at h
  split at h
  · split at h
    · rename_i e' hexpand
      cases h
      exact isInternal_expand hexpand
    · cases h
  · cases h

theorem isInternal_declaredLevel (h : p.declaredLevel depth decl = .error e) :
    e.isInternal = false := by
  rw [declaredLevel] at h
  split at h
  · cases h
  · rename_i e' hmethods
    split at h
    · cases h
      exact isInternal_declaredMethods hmethods
    · cases h

theorem isInternal_levelOf (h : p.levelOf depth fresh types = .error e) : e.isInternal = false := by
  induction types generalizing fresh with
  | nil => cases h
  | cons t rest ih =>
    cases t with
    | error scope =>
      rw [levelOf] at h
      split at h
      · rename_i e' hrest
        cases h
        exact ih hrest
      · cases h
    | declared decl =>
      rw [levelOf] at h
      split at h
      · split at h
        · rename_i e' hlevel
          cases h
          exact isInternal_declaredLevel hlevel
        · split at h
          · rename_i e' hrest
            cases h
            exact ih hrest
          · cases h
      · exact ih h

theorem isInternal_methodsFrom {hidden : Names}
    (h : p.methodsFrom depth fresh hidden set types = .error e) :
    e.isInternal = false := by
  -- Every level but the last leaves fewer types to be looked at.
  induction hlen : fresh.length using Nat.strong_induction_on
    generalizing depth fresh hidden set types with
  | _ n ih =>
    rw [methodsFrom] at h
    split at h
    · rename_i e' hlevel
      cases h
      exact isInternal_levelOf hlevel
    · rename_i level left hlevel
      dsimp only at h
      split at h
      · cases h
      · rename_i hnext
        rcases levelOf_fresh hlevel with hlt | ⟨-, hnil⟩
        · exact ih _ (hlen ▸ hlt) h rfl
        · exact absurd hnil hnext

theorem isInternal_methodSet (h : p.methodSet decl = .error e) : e.isInternal = false := by
  rw [methodSet] at h
  split at h
  · cases h
  · exact isInternal_methodsFrom h

/-! ## Implementing an interface -/

theorem isInternal_missingAmong {methods : List (MethodGroup × Method)}
    (h : p.missingAmong set methods = .error e) : e.isInternal = false := by
  obtain ⟨_, _, _, _, _, _, _, _, rfl⟩ := missingAmong_eq_error_iff.1 h
  rfl

theorem parse_of_lookup? (hread : p.IsRead) {dest : Declared}
    (h : p.lookup? r = some dest) : SourceFile.parse dest.file.text = .ok dest.file.source := by
  obtain ⟨pkg, hpkg, hlookup⟩ := Option.bind_eq_some_iff.1 h
  have hmem := mem_typeDecls_of_lookup? (mem_packages_of_package? hpkg) hlookup
  obtain ⟨hscope, -⟩ := isScope_of_mem hmem
  exact hread _ hscope.package _ hscope.file

/-- Stubs are put into a file that was read without an internal error. -/
theorem isInternal_withStubs {dest : PackageFile}
    (hread : SourceFile.parse dest.text = .ok dest.source) {spec : TypeSpec} {interface : String}
    {stubs : List Method} {table : ImportTable}
    (h : dest.withStubs spec interface stubs table = .error e) : e.isInternal = false := by
  rcases error_of_withStubs h with ⟨error, draft, rfl⟩ | ⟨error, rfl, happly⟩
  · rfl
  · obtain ⟨out, hout⟩ := SourceFile.importEdits_apply hread (ImportTable.infos table.added)
    rw [hout] at happly
    cases happly

theorem isInternal_requireType (h : p.requireType r = .error e) :
    e.isInternal = false := by
  rw [requireType] at h
  split at h
  · cases h
  · cases h
    rfl

/-- Implementing an interface in a program that was read fails only for reasons that lie in the
program. -/
theorem isInternal_implement (hread : p.IsRead) {interface concrete : TypeRef}
    (h : p.implement interface concrete = .error e) : e.isInternal = false := by
  have hsteps := h
  rw [implement] at hsteps
  rcases error_of_bind hsteps with he | ⟨decl, hdecl, hsteps⟩
  · exact isInternal_requireType he
  rcases error_of_bind hsteps with he | ⟨dest, hdest, hsteps⟩
  · exact isInternal_requireType he
  rcases error_of_bind hsteps with he | ⟨expansion, hexpand, hsteps⟩
  · exact isInternal_expand he
  rcases error_of_bind hsteps with he | ⟨set, hset, hsteps⟩
  · exact isInternal_methodSet he
  rcases error_of_bind hsteps with he | ⟨missing, hmissing, -⟩
  · exact isInternal_missingAmong he
  rw [requireType_eq_ok_iff] at hdecl hdest
  rcases implement_of_fits hdecl hdest hexpand hset (not_mismatches_of_missingAmong hmissing) with
    ⟨-, hnone⟩ | ⟨-, ⟨q, file, hq⟩ | ⟨stubs, table, -, hstubs⟩⟩
  · rw [hnone] at h
    cases h
  · rw [hq] at h
    cases h
    rfl
  · rw [hstubs] at h
    cases hwith : dest.file.withStubs dest.spec interface.name stubs table with
    | ok imp =>
      rw [hwith] at h
      cases h
    | error e' =>
      rw [hwith] at h
      cases h
      exact isInternal_withStubs (parse_of_lookup? hread hdest) hwith

/-- In a loaded program no interface is implemented with an internal error: what a transformation
leaves has every qualifier bound, and the edits that add imports can be carried out. -/
theorem internal_unreachable :
    (∀ source roots p, load source roots = .ok p → ∀ interface concrete broken,
        p.implement interface concrete ≠ .error (.internal broken)) ∧
      (∀ (p : Program) dest origin sig sig' t t',
        (Signature.transformM (p.requalifyNode dest origin) sig).run t = (.ok sig', t') →
          p.unboundQualifier? t' sig' = none) ∧
      ∀ text file, SourceFile.parse text = .ok file → ∀ added,
        (∀ e ∈ file.importEdits text.toList added, e.isInBounds text.toList = true) ∧
          Edit.Apart (file.importEdits text.toList added) ∧
          ∃ out, Edit.applyAll text.toList (file.importEdits text.toList added) = .ok out := by
  refine ⟨?_, ?_, ?_⟩
  · intro source roots p hload interface concrete broken h
    cases isInternal_implement (isRead_of_load hload) h
  · intro p dest origin sig sig' t t' h
    exact unboundQualifier?_of_transformM h
  · intro text file h added
    obtain ⟨hin, hapart⟩ := SourceFile.applicable_importEdits (SourceFile.imports_bounded h) added
    exact ⟨fun e he => Edit.isInBounds_of_isIn (hin e he), hapart,
      SourceFile.importEdits_apply h added⟩

/-- A file with a group of imports. -/
def groupText : String :=
  "package b\nimport (\n\x22m/c\x22\n)\ntype C c.U\n"

/-- What is declared in this file. -/
def groupFile : SourceFile :=
  (SourceFile.parse groupText).toOption.getD default

/-- The scope of this file. -/
def groupScope : Scope :=
  let file : PackageFile := ⟨"m/b/b.go", groupText, groupFile⟩
  ⟨⟨"m/b", "b", [file]⟩, file⟩

theorem internal_unreachable_group :
    (∃ p, load ((Shelf.empty none).addFile "m/a" "a.go" lateText).toSource ["m/a"] = .ok p ∧
      ∀ broken, p.implement ⟨"m/a", "J"⟩ ⟨"m/a", "T"⟩ ≠ .error (.internal broken)) ∧
    (∃ sig' t', (Signature.transformM
        ((single "m/b" "b.go" groupText groupFile).requalifyNode groupScope groupScope)
        ⟨[.unnamed (.qualified "c" "U")], []⟩).run (.ofFile groupFile) = (.ok sig', t') ∧
      (single "m/b" "b.go" groupText groupFile).unboundQualifier? t' sig' = none) ∧
    SourceFile.parse groupText = .ok groupFile ∧ groupFile.importSpecs.length = 1 ∧
      ∃ out, Edit.applyAll groupText.toList
        (groupFile.importEdits groupText.toList [⟨"", "m/a"⟩, ⟨"x", "m/d"⟩]) = .ok out := by
  obtain ⟨himplement, hbound, hedits⟩ := internal_unreachable
  have hlate : SourceFile.parse lateText = .ok lateFile := by decide +kernel
  have hload := load_single "m/a" "a.go" hlate (by decide +kernel) (by decide)
  have hparse : SourceFile.parse groupText = .ok groupFile := by decide +kernel
  have hsome : ((Signature.transformM
      ((single "m/b" "b.go" groupText groupFile).requalifyNode groupScope groupScope)
      ⟨[.unnamed (.qualified "c" "U")], []⟩).run (.ofFile groupFile)).1.toOption.isSome = true := by
    decide +kernel
  rcases hrun : (Signature.transformM
      ((single "m/b" "b.go" groupText groupFile).requalifyNode groupScope groupScope)
      ⟨[.unnamed (.qualified "c" "U")], []⟩).run (.ofFile groupFile) with ⟨e | sig', t'⟩
  · rw [hrun] at hsome
    cases hsome
  · exact ⟨⟨_, hload, himplement _ _ _ hload _ _⟩, ⟨sig', t', rfl, hbound _ _ _ _ _ _ _ hrun⟩,
      hparse, by decide +kernel, (hedits _ _ hparse _).2.2⟩

end Program

end Stubwright
