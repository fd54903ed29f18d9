import Stubwright.Implement
import Stubwright.Proofs.Expansion
import Stubwright.Proofs.Requalify.Bound
import Stubwright.Proofs.Selector.Search

/-!
# What implementing an interface comes to

Once the methods of the interface and those of the type are listed, every method of the interface is
of one of three kinds: the type has it, lacks it, or has it with another signature.

* `implement_classifies`: the outcome, from the kinds of the methods.
* `implement_eq_none`: when a type that has the stubs lacks nothing.
-/

namespace Stubwright

open List

/-- A computation in two parts fails if one of them does. -/
theorem error_of_bind {ε α β : Type} {x : Except ε α} {f : α → Except ε β} {e : ε}
    (h : x >>= f = .error e) : x = .error e ∨ ∃ a, x = .ok a ∧ f a = .error e := by
  cases x with
  | error e' =>
    cases h
    exact .inl rfl
  | ok a => exact .inr ⟨a, rfl, h⟩

namespace Program

variable {p : Program} {set : MethodSet} {methods : List (MethodGroup × Method)} {e : StubError}
  {dest : PackageFile} {spec : TypeSpec} {interface : String} {stubs : List Method}
  {table : ImportTable} {imp : Implementation} {missing : List MissingMethod}

/-! ## Three kinds of methods -/

/-- The type has a method of this name, of another shape. -/
def Mismatches (p : Program) (set : MethodSet) (m : MethodGroup × Method) : Prop :=
  ∃ entry, set.get? m.2.name = some entry ∧
    p.methodShape m.1.scope m.2.sig ≠ p.methodShape entry.scope entry.sig

def mismatchError (p : Program) (m : MethodGroup × Method) (entry : MethodEntry) : StubError :=
  .signatureMismatch m.2.name (p.methodShape m.1.scope m.2.sig).display
    (p.methodShape entry.scope entry.sig).display

/-- The methods that the type lacks, in order. -/
def absent (set : MethodSet) (methods : List (MethodGroup × Method)) :
    List (MethodGroup × Method) :=
  methods.filter fun m => !set.contains m.2.name

def missingOf (m : MethodGroup × Method) : MissingMethod :=
  ⟨m.1.scope, m.2, m.1.interface⟩

/-- What is found out about one method. -/
theorem missingMethod_cases (p : Program) (set : MethodSet) (m : MethodGroup × Method) :
    (set.get? m.2.name = none ∧ p.missingMethod set m.1 m.2 = .ok (some (missingOf m))) ∨
      ∃ entry, set.get? m.2.name = some entry ∧
        (p.methodShape m.1.scope m.2.sig = p.methodShape entry.scope entry.sig ∧
            p.missingMethod set m.1 m.2 = .ok none ∨
          p.methodShape m.1.scope m.2.sig ≠ p.methodShape entry.scope entry.sig ∧
            p.missingMethod set m.1 m.2 = .error (p.mismatchError m entry)) := by
  cases hget : set.get? m.2.name with
  | none => exact .inl ⟨rfl, by rw [missingMethod, hget]; rfl⟩
  | some entry =>
    refine .inr ⟨entry, rfl, ?_⟩
    by_cases hshape : p.methodShape m.1.scope m.2.sig = p.methodShape entry.scope entry.sig
    · exact .inl ⟨hshape, by simp only [missingMethod, hget, if_pos hshape]⟩
    · exact .inr ⟨hshape, by simp only [missingMethod, hget, if_neg hshape]; rfl⟩

/-- A method that does not mismatch is found missing just when the type lacks it. -/
theorem missingMethod_of_not_mismatches {m : MethodGroup × Method} (h : ¬ p.Mismatches set m) :
    p.missingMethod set m.1 m.2
      = .ok (if set.contains m.2.name then none else some (missingOf m)) := by
  rcases missingMethod_cases p set m with ⟨hget, hmissing⟩ | ⟨entry, hget, ⟨-, hmissing⟩ | ⟨hne, -⟩⟩
  · rw [hmissing, MethodSet.contains, hget]
    rfl
  · rw [hmissing, MethodSet.contains, hget]
    rfl
  · exact absurd ⟨entry, hget, hne⟩ h

/-- Methods that do not mismatch are passed over up to the first that does. -/
theorem missingAmong_append {before : List (MethodGroup × Method)}
    (h : ∀ m ∈ before, ¬ p.Mismatches set m) (after : List (MethodGroup × Method)) :
    p.missingAmong set (before ++ after)
      = (p.missingAmong set after).map ((absent set before).map missingOf ++ ·) := by
  induction before with
  | nil => cases hafter : p.missingAmong set after <;> simp [absent, hafter, Except.map]
  | cons m before ih =>
    have hm := missingMethod_of_not_mismatches (h m mem_cons_self)
    have hrest := ih fun m hm => h m (mem_cons_of_mem _ hm)
    simp only [cons_append, missingAmong, hm, hrest]
    cases p.missingAmong set after with
    | error e => rfl
    | ok missing => cases hcontains : set.contains m.2.name <;> simp [absent, hcontains, Except.map]

/-- The comparison fails just at the first method that mismatches, and says so. -/
theorem missingAmong_eq_error_iff :
    p.missingAmong set methods = .error e ↔ ∃ before m after entry,
      methods = before ++ m :: after ∧ (∀ x ∈ before, ¬ p.Mismatches set x) ∧
        set.get? m.2.name = some entry ∧
        p.methodShape m.1.scope m.2.sig ≠ p.methodShape entry.scope entry.sig ∧
        e = p.mismatchError m entry := by
  constructor
  · intro h
    induction methods with
    | nil => cases h
    | cons m methods ih =>
      rcases missingMethod_cases p set m with ⟨hget, hm⟩ | ⟨entry, hget, ⟨hshape, hm⟩ | ⟨hne, hm⟩⟩
      case inr.inr =>
        simp only [missingAmong, hm, Except.error.injEq] at h
        exact ⟨[], m, methods, entry, rfl, by simp, hget, hne, h.symm⟩
      -- the method is of another kind, so the error comes from a later one
      all_goals
        have hfits : ¬ p.Mismatches set m := by
          rintro ⟨entry', hget', hne⟩
          simp_all
        simp only [missingAmong, hm] at h
        split at h
        · rename_i hrest
          obtain ⟨before, x, after, entry', rfl, hbefore, hx⟩ := ih (hrest.trans h)
          refine ⟨m :: before, x, after, entry', rfl, ?_, hx⟩
          intro y hy
          rcases mem_cons.1 hy with rfl | hy
          · exact hfits
          · exact hbefore y hy
        · cases h
  · rintro ⟨before, m, after, entry, rfl, hbefore, hget, hne, rfl⟩
    have hm : p.missingMethod set m.1 m.2 = .error (p.mismatchError m entry) := by
      simp only [missingMethod, hget, if_neg hne]
      rfl
    rw [missingAmong_append hbefore]
    simp only [missingAmong, hm, Except.map]

theorem not_mismatches_of_missingAmong
    (h : p.missingAmong set methods = .ok missing) : ∀ m ∈ methods, ¬ p.Mismatches set m := by
  rintro m hm ⟨entry, hget, hne⟩
  induction methods generalizing missing with
  | nil => cases hm
  | cons x methods ih =>
    rw [missingAmong] at h
    split at h
    · cases h
    · rename_i first hx
      split at h
      · cases h
      · rename_i rest hrest
        rcases mem_cons.1 hm with rfl | hm
        · simp only [missingMethod, hget, if_neg hne] at hx
          cases hx
        · exact ih hrest hm

/-- The comparison succeeds just when no method mismatches, and then lists what the type lacks. -/
theorem missingAmong_eq_ok_iff :
    p.missingAmong set methods = .ok missing ↔
      (∀ m ∈ methods, ¬ p.Mismatches set m) ∧ missing = (absent set methods).map missingOf := by
  have hall : (∀ m ∈ methods, ¬ p.Mismatches set m) →
      p.missingAmong set methods = .ok ((absent set methods).map missingOf) := by
    intro h
    have happend := missingAmong_append h []
    simpa [missingAmong, Except.map] using happend
  constructor
  · intro h
    have hfits := not_mismatches_of_missingAmong h
    exact ⟨hfits, Except.ok.inj (h.symm.trans (hall hfits))⟩
  · rintro ⟨hfits, rfl⟩
    exact hall hfits

/-! ## Stubs -/

/-- Stubs for methods, from the import table `t` on: the signature of each is what requalifying the
signature of its method gives, with the table that the stubs before it have left. -/
inductive Stubbed (p : Program) (dest : Scope) :
    ImportTable → List (MethodGroup × Method) → List Method → ImportTable → Prop
  | nil {t : ImportTable} : Stubbed p dest t [] [] t
  | cons {t t₁ t₂ : ImportTable} {m : MethodGroup × Method} {ms : List (MethodGroup × Method)}
      {sig : Signature} {stubs : List Method}
      (hsig : (p.requalify dest m.1.scope m.2.sig).run t = (.ok sig, t₁))
      (hrest : Stubbed p dest t₁ ms stubs t₂) :
      Stubbed p dest t (m :: ms) (⟨m.2.name, sig⟩ :: stubs) t₂

/-- Rewriting the signatures of missing methods gives a stub for each, or fails at a qualifier that
the file of a signature does not import. -/
theorem run_stubsFor (p : Program) (dest : Scope) (ms : List (MethodGroup × Method))
    (t : ImportTable) :
    (∃ stubs t', (p.stubsFor dest (ms.map missingOf)).run t = (.ok stubs, t') ∧
        Stubbed p dest t ms stubs t') ∨
      ∃ q file t', (p.stubsFor dest (ms.map missingOf)).run t
        = (.error (.unresolvedQualifier q file), t') := by
  induction ms generalizing t with
  | nil => exact .inl ⟨[], t, rfl, .nil⟩
  | cons m ms ih =>
    rw [map_cons, stubsFor, run_bind_exceptState]
    rcases hrun : (p.requalify dest m.1.scope m.2.sig).run t with ⟨r, t₁⟩
    rw [show (p.requalify dest (missingOf m).scope (missingOf m).method.sig).run t = (r, t₁) from hrun]
    cases r with
    | error e =>
      obtain ⟨q, file, rfl⟩ := error_of_requalify hrun
      exact .inr ⟨q, file, t₁, rfl⟩
    | ok sig =>
      simp only [run_bind_exceptState]
      rcases ih t₁ with ⟨stubs, t₂, hrest, hstubbed⟩ | ⟨q, file, t₂, hrest⟩
      · rw [hrest]
        exact .inl ⟨_, t₂, rfl, .cons hrun hstubbed⟩
      · rw [hrest]
        exact .inr ⟨q, file, t₂, rfl⟩

theorem draft_of_withStubs (h : dest.withStubs spec interface stubs table = .ok imp) :
    ∃ draft text, dest.draft spec interface stubs table = .ok draft ∧
      imp = { draft with fileContent := text } := by
  rw [PackageFile.withStubs] at h
  obtain ⟨draft, hdraft, h⟩ := ok_of_bind h
  split at h
  · rename_i text htext
    exact ⟨draft, text, hdraft, (Except.ok.inj h).symm⟩
  · cases h

theorem addedImports_of_withStubs (h : dest.withStubs spec interface stubs table = .ok imp) :
    imp.addedImports = ImportTable.infos table.added := by
  obtain ⟨draft, text, hdraft, rfl⟩ := draft_of_withStubs h
  rw [PackageFile.draft] at hdraft
  split at hdraft
  · cases hdraft
  · cases hdraft
    rfl

theorem error_of_withStubs (h : dest.withStubs spec interface stubs table = .error e) :
    (∃ error draft, e = .format error draft) ∨ ∃ error, e = .internal (.importEdits dest.path error) ∧
      Edit.applyAll dest.text.toList
        (dest.source.importEdits dest.text.toList (ImportTable.infos table.added)) = .error error := by
  rw [PackageFile.withStubs] at h
  rcases error_of_bind h with hdraft | ⟨draft, -, h⟩
  · rw [PackageFile.draft] at hdraft
    split at hdraft
    · rename_i error herror
      cases hdraft
      exact .inr ⟨error, rfl, herror⟩
    · cases hdraft
  · split at h
    · cases h
    · cases h
      exact .inl ⟨_, _, rfl⟩

/-! ## The outcome -/

theorem requireType_eq_ok_iff {r : TypeRef} {decl : Declared} :
    p.requireType r = .ok decl ↔ p.lookup? r = some decl := by
  rw [requireType]
  split <;> simp_all

section Outcome

variable {interface concrete : TypeRef} {decl dest : Declared} {expansion : Expansion}
  (hdecl : p.lookup? interface = some decl) (hdest : p.lookup? concrete = some dest)
  (hexpand : p.expand decl [] = .ok expansion) (hset : p.methodSet dest = .ok set)

include hdecl hdest hexpand hset

/-- What remains of implementing once the methods on both sides are listed. -/
theorem implement_eq :
    p.implement interface concrete = (do
      let missing ← p.missingAmong set (MethodGroup.flatten expansion.groups)
      if missing.isEmpty then return none
      let (stubs, table) := (p.stubsFor dest.scope missing).run (.ofFile dest.file.source)
      return some (← dest.file.withStubs dest.spec interface.name (← stubs) table)) := by
  rw [implement, requireType_eq_ok_iff.2 hdecl, requireType_eq_ok_iff.2 hdest]
  change (p.expand decl [] >>= _) = _
  rw [hexpand]
  change (p.methodSet dest >>= _) = _
  rw [hset]
  rfl

/-- Where the comparison fails, implementing does. -/
theorem implement_of_error
    (h : p.missingAmong set (MethodGroup.flatten expansion.groups) = .error e) :
    p.implement interface concrete = .error e := by
  rw [implement_eq hdecl hdest hexpand hset, h]
  rfl

/-- Where methods are missing, their stubs are written and put into the file. -/
theorem implement_of_missing {m : MissingMethod} {ms : List MissingMethod}
    (h : p.missingAmong set (MethodGroup.flatten expansion.groups) = .ok (m :: ms))
    {stubs : Except StubError (List Method)}
    (hrun : (p.stubsFor dest.scope (m :: ms)).run (.ofFile dest.file.source) = (stubs, table)) :
    p.implement interface concrete = stubs.bind fun stubs =>
      (dest.file.withStubs dest.spec interface.name stubs table).map some := by
  rw [implement_eq hdecl hdest hexpand hset, h]
  simp only [bind, Except.bind, isEmpty_cons, Bool.false_eq_true, if_false, hrun]
  cases stubs with
  | error e => rfl
  | ok stubs => cases dest.file.withStubs dest.spec interface.name stubs table <;> rfl

/-- Where no method mismatches, there is nothing to do, or stubs stand for the methods that are
absent, or a file on the way makes it fail. -/
theorem implement_of_fits (h : ∀ m ∈ MethodGroup.flatten expansion.groups, ¬ p.Mismatches set m) :
    (absent set (MethodGroup.flatten expansion.groups) = [] ∧
        p.implement interface concrete = .ok none) ∨
      absent set (MethodGroup.flatten expansion.groups) ≠ [] ∧
        ((∃ q file, p.implement interface concrete = .error (.unresolvedQualifier q file)) ∨
          ∃ stubs table, Stubbed p dest.scope (.ofFile dest.file.source)
              (absent set (MethodGroup.flatten expansion.groups)) stubs table ∧
            p.implement interface concrete
              = (dest.file.withStubs dest.spec interface.name stubs table).map some) := by
  have hmissing := missingAmong_eq_ok_iff.2 ⟨h, rfl⟩
  cases habsent : absent set (MethodGroup.flatten expansion.groups) with
  | nil =>
    refine .inl ⟨rfl, ?_⟩
    rw [implement_eq hdecl hdest hexpand hset, hmissing, habsent]
    rfl
  | cons m ms =>
    refine .inr ⟨by simp, ?_⟩
    rw [habsent, map_cons] at hmissing
    rcases run_stubsFor p dest.scope (m :: ms) (.ofFile dest.file.source) with
      ⟨stubs, table, hrun, hstubbed⟩ | ⟨q, file, table, hrun⟩
    · exact .inr ⟨stubs, table, hstubbed, implement_of_missing hdecl hdest hexpand hset hmissing hrun⟩
    · exact .inl ⟨q, file, implement_of_missing hdecl hdest hexpand hset hmissing hrun⟩

end Outcome

/-! ### A late mismatch -/

/-- An interface with two methods, one of them embedded, a type that has the other with another
result, and a type that has only the embedded one. -/
def lateText : String :=
  "package a;type(I interface\x7bJ;B()T\x7d;J interface\x7bA(T)int\x7d;T struct\x7b\x7d;U int);" ++
    "func(T)B()int\x7b\x7d;func(U)A(T)int\x7b\x7d"

/-- What is declared in this file. -/
def lateFile : SourceFile :=
  (SourceFile.parse lateText).toOption.getD default

section SecondRun

variable {interface concrete : TypeRef} {decl dest : Declared} {expansion : Expansion}

/-- A type has a method of its own: one function of the name is declared for it, with the same
shape, and no field has the name. -/
def HasOwn (p : Program) (dest : Declared) (m : MethodGroup × Method) : Prop :=
  (∃ file func, (dest.package.methodsOf dest.name).filter (·.2.name == m.2.name) = [(file, func)] ∧
    p.methodShape m.1.scope m.2.sig = p.methodShape ⟨dest.package, file⟩ func.sig) ∧
  m.2.name ∉ (p.structLevel dest).fields

/-- The methods that a type has of its own are in its method set, if it is neither an alias nor an
interface. -/
theorem exists_methodSet (hdest : p.lookup? concrete = some dest)
    (halias : dest.spec.isAlias = false) (hinterface : p.isInterface dest = false) :
    ∃ set, p.methodSet dest = .ok set ∧ ∀ m, p.HasOwn dest m → ∃ entry,
      set.get? m.2.name = some entry ∧
        p.methodShape m.1.scope m.2.sig = p.methodShape entry.scope entry.sig := by
  have hmem : dest.qualifiedName ∈ p.typeNames := by
    obtain ⟨pkg, hpkg, hlookup⟩ := Option.bind_eq_some_iff.1 hdest
    exact mem_map_of_mem (mem_flatMap_of_mem (mem_of_find?_eq_some hpkg)
      (Package.mem_of_lookup? hlookup))
  have hlooked : looked p.typeNames [.declared dest] = [.declared dest] := by
    rw [looked, if_pos hmem]
    rfl
  have hmethods : p.declaredMethods 0 dest = .ok ((dest.package.methodsOf dest.name).map
      fun f => (f.2.name, ⟨⟨dest.package, f.1⟩, f.2.sig, 0⟩)) :=
    if_neg (by simp [hinterface])
  have hroot : p.methodSet dest = p.methodsFrom 0 p.typeNames [] .empty [.declared dest] := by
    rw [methodSet, followAlias?, hopLimit, followAliasWithin, if_neg (by simp [halias])]
  have hlists : ∀ decl, .declared decl ∈ looked p.typeNames [.declared dest] →
      p.ListsMethods decl := by
    intro decl hdecl
    rw [hlooked, mem_singleton] at hdecl
    cases hdecl
    exact ⟨_, hmethods⟩
  have hempty : ∀ name e, MethodSet.empty.get? name = some e → name ∈ ([] : Names) := by
    intro name e h
    cases h
  obtain ⟨set, hset, hget⟩ := p.get?_methodsFrom_of_start 0 (fun _ => hlists) hempty
  refine ⟨set, hroot.trans hset, ?_⟩
  rintro m ⟨⟨file, func, hfunc, hshape⟩, hfield⟩
  refine ⟨⟨⟨dest.package, file⟩, func.sig, 0⟩, (hget _ _).2 (.inr ⟨not_mem_nil, ?_⟩), hshape⟩
  have hfields : (p.fieldsIn (.declared dest)).filter (· == m.2.name) = [] := by
    rw [filter_eq_nil_iff]
    intro x hx heq
    exact hfield (beq_iff_eq.1 heq ▸ hx)
  refine selectsFrom_iff.2 (.inl ?_)
  rw [searched, hlooked, occurrencesAmong, flatMap_singleton, occurrencesIn, hfields, methodsIn,
    hmethods, Except.toOption, Option.getD_some, filter_map, Function.comp_def, hfunc]
  rfl

/-- Where a type that is neither an alias nor an interface has every method of an interface of its
own, as it does once stubs were added for those it lacked, there is nothing to do. -/
theorem implement_eq_none (hdecl : p.lookup? interface = some decl)
    (hdest : p.lookup? concrete = some dest) (hexpand : p.expand decl [] = .ok expansion)
    (halias : dest.spec.isAlias = false) (hinterface : p.isInterface dest = false)
    (hown : ∀ m ∈ MethodGroup.flatten expansion.groups, p.HasOwn dest m) :
    p.implement interface concrete = .ok none := by
  obtain ⟨set, hset, hhas⟩ := exists_methodSet hdest halias hinterface
  have hfits : ∀ m ∈ MethodGroup.flatten expansion.groups, ¬p.Mismatches set m := by
    rintro m hm ⟨entry, hget, hne⟩
    obtain ⟨entry', hget', hshape⟩ := hhas m (hown m hm)
    cases hget.symm.trans hget'
    exact hne hshape
  rcases implement_of_fits hdecl hdest hexpand hset hfits with ⟨-, hnone⟩ | ⟨habsent, -⟩
  · exact hnone
  · refine absurd (filter_eq_nil_iff.2 fun m hm => ?_) habsent
    obtain ⟨entry, hget, -⟩ := hhas m (hown m hm)
    simp [MethodSet.contains, hget]

end SecondRun

/-! ### Stubs for an alias -/

/-- An interface, a type and another name for the type. -/
def renamedText : String :=
  "package a;type(I interface\x7bM()\x7d;B int;A=B)\n"

/-- A method of this other name. -/
def renamedStub : String :=
  "// M implements I\nfunc (*A) M() \x7b\n\tpanic(\x22unimplemented\x22)\n\x7d\n"

/-- What is declared in the file, with methods behind the types. -/
def renamedFile (methods : List FuncDecl) : SourceFile where
  package := "a"
  packageSpan := ⟨0, 9⟩
  imports := []
  decls := .types ⟨10, 42⟩ [⟨"I", ⟨15, 31⟩, [], false, .interface [.method "M" ⟨[], []⟩]⟩,
    ⟨"B", ⟨32, 37⟩, [], false, .name "int"⟩, ⟨"A", ⟨38, 41⟩, [], true, .name "B"⟩] ::
    methods.map .func

/-- The methods of an alias are those of the type behind it, while its stubs have its own name; so a
method that a first run has added is missing to the second. -/
theorem implement_again_alias :
    ∃ p p' imp, load ((Shelf.empty none).addFile "m/a" "a.go" renamedText).toSource ["m/a"] = .ok p ∧
      p.implement ⟨"m/a", "I"⟩ ⟨"m/a", "A"⟩ = .ok (some imp) ∧ imp.file = "m/a/a.go" ∧
      load ((Shelf.empty none).addFile "m/a" "a.go" imp.fileContent).toSource ["m/a"] = .ok p' ∧
      p'.implement ⟨"m/a", "I"⟩ ⟨"m/a", "A"⟩ ≠ .ok none := by
  set text := renamedText ++ "\n" ++ renamedStub with htext
  set file := renamedFile [⟨some ⟨none, true, "A", []⟩, "M", [], ⟨[], []⟩, some ⟨76, 103⟩, ⟨62, 103⟩⟩]
  have hparse : SourceFile.parse renamedText = .ok (renamedFile []) := by decide +kernel
  have hparse' : SourceFile.parse text = .ok file := by decide +kernel
  refine ⟨_, single "m/a" "a.go" text file, ⟨"m/a/a.go", text, renamedStub, [], []⟩,
    load_single "m/a" "a.go" hparse rfl (by decide), by decide +kernel, rfl,
    load_single "m/a" "a.go" hparse' rfl (by decide), fun hnone => ?_⟩
  set scope : Scope := ⟨⟨"m/a", "a", [⟨"m/a/a.go", text, file⟩]⟩, ⟨"m/a/a.go", text, file⟩⟩
  have hdecl : (single "m/a" "a.go" text file).lookup? ⟨"m/a", "I"⟩
      = some ⟨scope.1, scope.2, file.typeSpecs.getD 0 default⟩ := by decide +kernel
  have hdest : (single "m/a" "a.go" text file).lookup? ⟨"m/a", "A"⟩
      = some ⟨scope.1, scope.2, file.typeSpecs.getD 2 default⟩ := by decide +kernel
  have hexpand : (single "m/a" "a.go" text file).expand
      ⟨scope.1, scope.2, file.typeSpecs.getD 0 default⟩ []
      = .ok ⟨[⟨"m/a.I", scope, [⟨"M", ⟨[], []⟩⟩]⟩], ["M"]⟩ := by decide +kernel
  have hset : (single "m/a" "a.go" text file).methodSet
      ⟨scope.1, scope.2, file.typeSpecs.getD 2 default⟩ = .ok .empty := by decide +kernel
  rcases implement_of_fits hdecl hdest hexpand hset
      (by rintro m - ⟨entry, hget, -⟩; cases hget) with
    ⟨habsent, -⟩ | ⟨-, ⟨q, path, herror⟩ | ⟨stubs, table, -, hstubs⟩⟩
  · cases habsent
  · cases herror.symm.trans hnone
  · rw [hstubs] at hnone
    cases hwith : PackageFile.withStubs _ _ _ stubs table <;> (rw [hwith] at hnone; cases hnone)

end Program

end Stubwright
