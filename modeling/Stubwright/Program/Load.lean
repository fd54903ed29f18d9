import Stubwright.ModFile
import Stubwright.Program.Source
import Stubwright.SourceFile.Parse

/-!
# Loading programs

A program is loaded from its roots: every root, every package that the files of a loaded package
import, and so on.  A root has to be found, and all its files have to be readable as source; other
packages are taken as far as they can be.  The files of a package that declare another name than
the first of them are left out.

Loading ends because every package that is loaded takes an import path out of the finite list of
those that can be reached.
-/

namespace Stubwright

inductive LoadError where
  | packageNotFound (path : String)
  | badSource (file : String) (error : SyntaxError)
  | badModule (error : ModFile.Error)
deriving DecidableEq, Repr

def LoadError.message : LoadError → String
  | .packageNotFound path => "package not found: " ++ path
  | .badSource file error => file ++ ":" ++ error.display
  | .badModule error => error.message

namespace Program

/-- Whether an import path never names a package. -/
def isPseudo (path : String) : Bool :=
  path == "C" || path == "unsafe"

def readFiles (isRoot : Bool) : List SourceUnit → Except LoadError (List PackageFile)
  | [] => .ok []
  | unit :: units =>
    match SourceFile.parse unit.text with
    | .ok source => do
      let files ← readFiles isRoot units
      return ⟨unit.path, unit.text, source⟩ :: files
    | .error error =>
      if isRoot then .error (.badSource unit.path error) else readFiles isRoot units

/-- The package that files make up: those that declare the name that the first one declares. -/
def ofFiles? (path : String) : List PackageFile → Option Package
  | [] => none
  | first :: rest =>
    let name := first.source.package
    some ⟨path, name, (first :: rest).filter fun f => f.source.package == name⟩

theorem path_of_ofFiles? {path : String} {files : List PackageFile} {pkg : Package}
    (h : ofFiles? path files = some pkg) : pkg.path = path := by
  cases files with
  | nil => simp [ofFiles?] at h
  | cons first rest => simp only [ofFiles?, Option.some.injEq] at h; simp [← h]

def readPackage (source : PackageSource) (path : String) (isRoot : Bool) :
    Except LoadError (Option Package) :=
  match source.read path with
  | none => .ok none
  | some units => (readFiles isRoot units).map (ofFiles? path)

theorem path_of_readPackage {source : PackageSource} {path : String} {isRoot : Bool}
    {pkg : Package} (h : readPackage source path isRoot = .ok (some pkg)) : pkg.path = path := by
  unfold readPackage at h
  split at h
  · simp at h
  · rename_i units _
    cases hf : readFiles isRoot units with
    | error e => simp [hf, Except.map] at h
    | ok files =>
      simp only [hf, Except.map, Except.ok.injEq] at h
      exact path_of_ofFiles? h

def importPaths (pkg : Package) : List String :=
  pkg.files.flatMap fun file => file.source.importSpecs.map (·.path)

/-- The paths among `bound` without a loaded package. -/
def unloaded (bound : List String) (p : Program) : Nat :=
  bound.countP fun path => !p.isLoaded path

theorem countP_lt_countP {α : Type} {p q : α → Bool} {l : List α} {x : α}
    (sub : ∀ y, q y = true → p y = true) (mem : x ∈ l) (hp : p x = true) (hq : q x = false) :
    l.countP q < l.countP p := by
  induction l with
  | nil => simp at mem
  | cons y ys ih =>
    have mono : ys.countP q ≤ ys.countP p :=
      List.countP_mono_left fun z _ hz => sub z hz
    have step : (if q y = true then 1 else 0) ≤ if p y = true then 1 else 0 := by
      by_cases hy : q y = true
      · exact Nat.le_of_eq (by rw [if_pos hy, if_pos (sub y hy)])
      · rw [if_neg hy]
        exact Nat.zero_le _
    simp only [List.countP_cons]
    rcases List.mem_cons.1 mem with rfl | mem
    · rw [if_pos hp, if_neg (by rw [hq]; exact Bool.false_ne_true)]
      omega
    · have := ih mem
      omega

theorem unloaded_add_lt {bound : List String} {p : Program} {pkg : Package}
    (mem : pkg.path ∈ bound) (fresh : p.isLoaded pkg.path = false) :
    unloaded bound (p.add pkg) < unloaded bound p := by
  refine countP_lt_countP (x := pkg.path) ?_ mem ?_ ?_
  · intro path h
    rw [isLoaded_add] at h
    cases hl : p.isLoaded path
    · rfl
    · simp [hl] at h
  · simp [fresh]
  · simp [isLoaded_add]

/-- Loads the packages of a queue into a program, roots marked, as far as `bound` reaches. -/
def loadQueue (source : PackageSource) (bound : List String) (p : Program) :
    List (String × Bool) → Except LoadError Program
  | [] => .ok p
  | (path, isRoot) :: queue =>
    if _hload : p.isLoaded path || p.isMissing path || isPseudo path then
      loadQueue source bound p queue
    else if _hmem : path ∈ bound then
      match _hread : readPackage source path isRoot with
      | .error e => .error e
      | .ok none =>
        if isRoot then .error (.packageNotFound path)
        else loadQueue source bound (p.addMissing path) queue
      | .ok (some pkg) =>
        loadQueue source bound (p.add pkg)
          (queue ++ (importPaths pkg).map fun imported => (imported, false))
    else loadQueue source bound (p.addMissing path) queue
termination_by queue => (unloaded bound p, queue.length)
decreasing_by
  · exact Prod.Lex.right _ (Nat.lt_succ_self _)
  · exact Prod.Lex.right _ (Nat.lt_succ_self _)
  · have hpath := path_of_readPackage _hread
    refine Prod.Lex.left _ _ (unloaded_add_lt ?_ ?_)
    · rw [hpath]; exact _hmem
    · rw [hpath]
      simp only [Bool.or_eq_true, not_or, Bool.not_eq_true] at _hload
      exact _hload.1.1
  · exact Prod.Lex.right _ (Nat.lt_succ_self _)

/-- Loads the roots and everything they import, directly or not. -/
def load (source : PackageSource) (roots : List String) : Except LoadError Program :=
  loadQueue source (roots ++ source.reach) .empty (roots.map fun root => (root, true))

end Program

end Stubwright
