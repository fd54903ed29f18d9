import Stubwright.ImportTable
import Stubwright.Layout
import Stubwright.SourceFile.ImportEdits
import Stubwright.StubError
import Stubwright.TypeExpr.Print

/-!
# Stubs

A stub is a method that only says that it is not implemented.  Stubs go behind the text of the file
that declares their type, with a blank line between each other and before the first; the imports
they need are added above, and the whole file is laid out anew.
-/

namespace Stubwright

/-- The receiver of the stubs of a type: its name, with its type parameters in brackets. -/
def TypeSpec.receiver (spec : TypeSpec) : String :=
  match spec.typeParamNames with
  | [] => spec.name
  | params => spec.name ++ "[" ++ String.intercalate ", " params ++ "]"

def renderStub (method : Method) (receiver interface : String) : String :=
  "// " ++ method.name ++ " implements " ++ interface ++ "\nfunc (*" ++ receiver ++ ") "
    ++ method.name ++ method.sig.toText ++ " \x7b\n\tpanic(\x22unimplemented\x22)\n\x7d\n"

def endLine (text : List Char) : List Char :=
  if text.getLast? = some '\n' then text else text ++ ['\n']

namespace PackageFile

/-- The file with stubs for a type that it declares, before it is laid out. -/
def draft (dest : PackageFile) (spec : TypeSpec) (interface : String) (stubs : List Method)
    (table : ImportTable) : Except StubError Implementation :=
  let methods := String.intercalate "\n" (stubs.map fun m => renderStub m spec.receiver interface)
  let added := ImportTable.infos table.added
  let text := dest.text.toList
  match Edit.applyAll text (dest.source.importEdits text added) with
  | .error e => .error (.internal (.importEdits dest.path e))
  | .ok text => .ok {
      file := dest.path
      fileContent := String.ofList (endLine text ++ '\n' :: methods.toList)
      methods := methods
      addedImports := added
      allImports := ImportTable.infos table.entries }

/-- The file of a type with stubs behind its text and its imports added, laid out. -/
def withStubs (dest : PackageFile) (spec : TypeSpec) (interface : String) (stubs : List Method)
    (table : ImportTable) : Except StubError Implementation := do
  let draft ← dest.draft spec interface stubs table
  match Layout.format draft.fileContent with
  | .ok text => .ok { draft with fileContent := text }
  | .error e => .error (.format e draft)

end PackageFile

end Stubwright
