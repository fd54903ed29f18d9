/-!
# Generated implementations

What comes out of generating stubs: the file with the stubs in it, the stubs alone, and the imports
of the file.
-/

namespace Stubwright

/-- An import as it is told to a caller. -/
structure ImportInfo where
  /-- The explicit name, or the empty text. -/
  name : String
  path : String
deriving DecidableEq, Repr, Inhabited

/-- The result of implementing an interface on a type. -/
structure Implementation where
  file : String
  /-- The text of that file with imports and stubs added. -/
  fileContent : String
  /-- The stubs alone. -/
  methods : String
  addedImports : List ImportInfo
  /-- Every import of the file, the added ones included. -/
  allImports : List ImportInfo
deriving DecidableEq, Repr, Inhabited

end Stubwright
