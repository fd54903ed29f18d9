import Stubwright.Build.Target
import Stubwright.Text.Lines

/-!
# Source files by name

A file belongs to a build by its name: it ends in `.go`, is no test, is not hidden, and its last
words, divided by underscores, name no other operating system or architecture than the target's.
-/

namespace Stubwright.Build

/-- The stem of a source file's name. -/
def stem? (name : String) : Option String :=
  let cs := name.toList
  if ".go".toList.isSuffixOf cs then some (String.ofList (cs.take (cs.length - 3))) else none

/-- Whether a stem, by its last words, belongs to the target.  A stem of a single word always
does. -/
def stemMatchesTarget (stem : String) : Bool :=
  match ((Text.splitOn '_' stem.toList).map String.ofList).reverse with
  | last :: previous :: rest =>
    if !rest.isEmpty && knownSystems.contains previous && knownArchitectures.contains last then
      previous == targetSystem && last == targetArchitecture
    else if knownSystems.contains last then last == targetSystem
    else if knownArchitectures.contains last then last == targetArchitecture
    else true
  | _ => true

/-- Whether a file name is that of a source file for the target, tests excluded. -/
def keepsFile (name : String) : Bool :=
  match stem? name with
  | none => false
  | some stem =>
    !"_test".toList.isSuffixOf stem.toList && !"_".toList.isPrefixOf name.toList
      && !".".toList.isPrefixOf name.toList && stemMatchesTarget stem

end Stubwright.Build
