import Stubwright.Edit
import Stubwright.Implementation
import Stubwright.ImportPath
import Stubwright.SourceFile
import Stubwright.Text.Blank

/-!
# Adding imports to a text

Where new imports go in the text of a file: into the first group in parentheses, there to the run
of lines whose paths they share most of, at their alphabetical place; else a lone import becomes
such a group; else a new declaration follows the package clause.  A declaration that imports `C`
belongs to the comment above it and is left alone.
-/

namespace Stubwright

/-- An import as it is written in a declaration. -/
def ImportInfo.spec (i : ImportInfo) : String :=
  let path := "\x22" ++ i.path ++ "\x22"
  if i.name = "" then path else i.name ++ " " ++ path

namespace ImportDecl

def isForeign (d : ImportDecl) : Bool :=
  d.specs.any fun spec => spec.path == "C"

end ImportDecl

namespace SourceFile

/-- Whether one of the lines that lie wholly in a text is blank. -/
def hasBlankLine (between : List Char) : Bool :=
  ((Text.splitOn '\n' between).drop 1).dropLast.any fun line => (Text.trim line).isEmpty

/-- Imports in runs that are divided by blank lines. -/
def importRuns (text : List Char) : List ImportSpec → List (List ImportSpec)
  | [] => []
  | [spec] => [[spec]]
  | spec :: next :: rest =>
    let runs := importRuns text (next :: rest)
    let between := ((Span.between spec.span.stop next.span.start).slice? text).getD []
    if hasBlankLine between then [spec] :: runs
    else match runs with
      | run :: runs => (spec :: run) :: runs
      | [] => [[spec]]

def sharedElements (path : String) (run : List ImportSpec) : Nat :=
  run.foldl (fun best spec => max best (ImportPath.commonElements spec.path path)) 0

/-- The run that shares the most leading elements with a path; of several, the first. -/
def bestRun (path : String) : List (List ImportSpec) → List ImportSpec
  | [] => []
  | run :: runs =>
    runs.foldl (fun best run =>
      if sharedElements path best < sharedElements path run then run else best) run

/-- The edit that adds an import to a group in parentheses: before the first import of its run with
a greater path, or behind the run. -/
def groupEdit (text : List Char) (lparen : Span) (runs : List (List ImportSpec))
    (info : ImportInfo) : Edit :=
  let run := bestRun info.path runs
  match run.find? fun spec => info.path < spec.path with
  | some spec => .insert (Text.lineStart text spec.span.start) ("\t" ++ info.spec ++ "\n")
  | none =>
    let place := match run.getLast? with
      | some spec => Text.lineEnd text spec.span.stop
      | none => lparen.stop
    .insert place ("\n\t" ++ info.spec)

def groupEdits (text : List Char) (lparen rparen : Span) (specs : List ImportSpec)
    (added : List ImportInfo) : List Edit :=
  if specs.isEmpty then
    let body := String.join (added.map fun info => "\n\t" ++ info.spec)
    let inside := Span.between lparen.stop rparen.start
    if (inside.slice? text).any fun s => (Text.trim s).isEmpty then [⟨inside, body ++ "\n"⟩]
    else [.insert lparen.stop body]
  else
    let runs := importRuns text specs
    added.map (groupEdit text lparen runs)

def groupBody (specs : List String) : String :=
  "import (\n" ++ String.join (specs.map fun spec => "\t" ++ spec ++ "\n") ++ ")"

/-- The comment behind a lone import on its line. -/
def trailingComment? (text : List Char) (stop : Nat) : Option String :=
  (((Span.mk stop (Text.lineEnd text stop)).slice? text).map Text.trim).bind fun rest =>
    if "//".toList.isPrefixOf rest then some (String.ofList rest) else none

/-- The edit that turns a lone import into a group with the added ones, in the order of paths.  A
comment behind the import stays with it. -/
def loneEdit (text : List Char) (decl : ImportDecl) (added : List ImportInfo) : Edit :=
  let comment := trailingComment? text decl.span.stop
  let kept := decl.specs.map fun spec =>
    let written := String.ofList ((spec.span.slice? text).getD [])
    (spec.path, match comment with
      | some comment => written ++ " " ++ comment
      | none => written)
  let specs := (kept ++ added.map fun info => (info.path, info.spec)).mergeSort
    fun a b => a.1 ≤ b.1
  let span := match comment with
    | some _ => Span.between decl.span.start (Text.lineEnd text decl.span.stop)
    | none => decl.span
  ⟨span, groupBody (specs.map (·.2))⟩

/-- The edit that adds a declaration behind the line that holds an offset. -/
def freshEdit (text : List Char) (anchor : Nat) (added : List ImportInfo) : Edit :=
  .insert (Text.lineEnd text anchor) <| "\n\n" ++ match added with
    | [one] => "import " ++ one.spec
    | many => groupBody (many.map (·.spec))

/-- The edits that add imports to a file. -/
def importEdits (file : SourceFile) (text : List Char) (added : List ImportInfo) : List Edit :=
  if added.isEmpty then []
  else
    let added := added.mergeSort fun a b => a.path ≤ b.path
    let own := file.imports.filter fun decl => !decl.isForeign
    match own.find? fun decl => decl.lparen.isSome with
    | some decl =>
      match decl.lparen, decl.rparen with
      | some lparen, some rparen => groupEdits text lparen rparen decl.specs added
      | _, _ => []
    | none =>
      match own with
      | decl :: _ => [loneEdit text decl added]
      | [] =>
        let anchor := match file.imports.getLast? with
          | some decl => decl.span.stop
          | none => file.packageSpan.stop
        [freshEdit text anchor added]

end SourceFile

end Stubwright
