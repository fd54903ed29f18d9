import Stubwright.Proofs.Requalify

/-!
# The imports of a destination over many calls

The stubs of one file are requalified one after the other against one import table, which starts
out as the imports of the file.

* `imports_requalifyAll`: the imports over any calls that share a table.
-/

namespace Stubwright

/-- The names that are kept free are those that the package declares. -/
theorem Package.not_declares_of_not_mem {pkg : Package} {name : String}
    (h : name ∉ pkg.declaredNames) : pkg.declares name = false := by
  rw [Package.declaredNames, Names.mem_ofList] at h
  simpa [Package.declares] using h

namespace Program

/-- Every entry that a call adds is bound to the qualifier of a reference of the result, if the call
succeeds. -/
theorem exists_used_of_requalify {p : Program} {dest origin : Scope} {sig sig' : Signature}
    {t t' : ImportTable} (h : (p.requalify dest origin sig).run t = (.ok sig', t')) :
    ∃ new, t'.entries = t.entries ++ new ∧ ∀ e ∈ new, ∃ q name,
      p.boundName? e.name e.path = some q ∧ .qualified q name ∈ sig'.references := by
  obtain ⟨r, t₁, hrun, hgrows, -, hok⟩ := run_requalify p dest origin sig t
  obtain ⟨rfl, rfl⟩ := Prod.mk.inj (hrun.symm.trans h)
  obtain ⟨new, heq, -⟩ := hgrows.exists_append
  exact ⟨new, heq, (hok sig' rfl).2.2 new heq⟩

/-- The imports over any calls that share one table.  The entries of the file come first, as they
were.  No qualifier stands for two paths.  Every entry that was added had, when it was added, a path
with neither a qualifier nor a dot; no path is added twice; the name it binds is not that of a type
or a function of the destination; and if the call that added it succeeded, it is the qualifier of a
reference in the result of that call.  The search for a free name ends with the preferred name or
with the least number from 2 on that makes it free. -/
theorem imports_requalifyAll (p : Program) (dest : Scope) (calls : List (Scope × Signature))
    (hfile : (ImportTable.ofFile dest.file.source).Unambiguous p) :
    ∃ adds : List ImportEntry,
      (p.requalifyAll dest calls (.ofFile dest.file.source)).entries
          = (ImportTable.ofFile dest.file.source).entries ++ adds ∧
      (p.requalifyAll dest calls (.ofFile dest.file.source)).Unambiguous p ∧
      (∀ before e after, adds = before ++ e :: after →
        (ImportTable.mk ((ImportTable.ofFile dest.file.source).entries ++ before)).binding? p e.path
          = none) ∧
      (adds.map (·.path)).Nodup ∧
      (∀ e ∈ adds, e.added = true ∧
        ∃ q, p.boundName? e.name e.path = some q ∧ dest.package.declares q = false) ∧
      (∀ earlier origin sig later sig' t', calls = earlier ++ (origin, sig) :: later →
        (p.requalify dest origin sig).run (p.requalifyAll dest earlier (.ofFile dest.file.source))
          = (.ok sig', t') →
        ∃ new, t'.entries
            = (p.requalifyAll dest earlier (.ofFile dest.file.source)).entries ++ new ∧
          ∀ e ∈ new, ∃ q name,
            p.boundName? e.name e.path = some q ∧ .qualified q name ∈ sig'.references) ∧
      (∀ preferred taken, ImportTable.freeName preferred taken ∉ taken ∧
        (preferred ∉ taken ∧ ImportTable.freeName preferred taken = preferred ∨
          preferred ∈ taken ∧ ∃ k, 2 ≤ k ∧ k ≤ 2 + taken.length ∧
            ImportTable.freeName preferred taken = preferred ++ toString k ∧
            ∀ j, 2 ≤ j → j < k → preferred ++ toString j ∈ taken)) := by
  have hgrows := grows_requalifyAll p dest calls (.ofFile dest.file.source)
  obtain ⟨adds, heq, hadded⟩ := hgrows.exists_append
  refine ⟨adds, heq, hgrows.unambiguous hfile, ?_, hgrows.nodup_paths heq, ?_, ?_, ?_⟩
  · rintro before e after rfl
    exact (hgrows.adds_of_split heq).unbound
  · intro e he
    obtain ⟨q, hq, hfree⟩ := hgrows.exists_boundName? heq he
    exact ⟨hadded e he, q, hq, Package.not_declares_of_not_mem hfree⟩
  · intro earlier origin sig later sig' t' _ hrun
    exact exists_used_of_requalify hrun
  · exact ImportTable.freeName_spec

end Program

/-! ## Two packages of one name

A destination that imports one package `io` comes to need another, and declares `io2` itself. -/

namespace TwoOfOneName

/-- A package of one file with these imports and types. -/
def package (path name : String) (imports : List (Option String × String))
    (types : List String) : Package :=
  ⟨path, name, [⟨path ++ "/file.go", "", ⟨name, .emptyAt 0,
    [⟨.emptyAt 0, none, none, imports.map fun i => ⟨i.1, i.2, .emptyAt 0⟩⟩],
    [.types (.emptyAt 0) (types.map fun type => ⟨type, .emptyAt 0, [], false, .struct []⟩)]⟩⟩]⟩

/-- The destination's package. -/
def ours : Package :=
  package "x/a" "a" [(none, "x/io"), (some ".", "x/dot")] ["A", "io2"]

/-- The package that the signature comes from. -/
def theirs : Package :=
  package "x/b" "b" [(none, "y/io"), (some "d", "x/dot"), (none, "x/a")] ["B"]

/-- A package whose signatures need a third `io`. -/
def others : Package :=
  package "x/c" "c" [(none, "z/io")] []

/-- The program. -/
def program : Program :=
  ⟨[ours, theirs, others, package "x/dot" "dot" [] ["T"], package "x/io" "io" [] ["Writer"],
    package "y/io" "io" [] ["Reader"], package "z/io" "io" [] ["Closer"]], []⟩

/-- The one file of a package within it. -/
def scope (pkg : Package) : Scope :=
  ⟨pkg, pkg.files.headD default⟩

/-- `(r *io.Reader, t d.T, a a.A) (B, error)`. -/
def signature : Signature :=
  ⟨[⟨["r"], .pointer (.qualified "io" "Reader")⟩, ⟨["t"], .qualified "d" "T"⟩,
    ⟨["a"], .qualified "a" "A"⟩], [⟨[], .name "B"⟩, ⟨[], .name "error"⟩]⟩

/-- `(io.Closer)`. -/
def earlier : Signature :=
  ⟨[⟨[], .qualified "io" "Closer"⟩], []⟩

end TwoOfOneName

open TwoOfOneName in
/-- The other `io` is imported as `io3`, and the signature's own package under its name. -/
theorem Program.imports_twoOfOneName :
    (ImportTable.ofFile (scope ours).file.source).Unambiguous program ∧
    program.requalifyAll (scope ours) [(scope theirs, signature)] (.ofFile (scope ours).file.source)
      = ⟨[⟨none, "x/io", false⟩, ⟨some ".", "x/dot", false⟩, ⟨some "io3", "y/io", true⟩,
          ⟨none, "x/b", true⟩]⟩ ∧
    ∃ adds : List ImportEntry,
      (program.requalifyAll (scope ours) [(scope theirs, signature)]
          (.ofFile (scope ours).file.source)).entries
        = (ImportTable.ofFile (scope ours).file.source).entries ++ adds ∧
      (adds.map (·.path)).Nodup := by
  have hfile : (ImportTable.ofFile (scope ours).file.source).Unambiguous program := by
    decide +kernel
  obtain ⟨adds, heq, -, -, hnodup, -⟩ :=
    Program.imports_requalifyAll program (scope ours) [(scope theirs, signature)] hfile
  exact ⟨hfile, by decide +kernel, adds, heq, hnodup⟩

end Stubwright
