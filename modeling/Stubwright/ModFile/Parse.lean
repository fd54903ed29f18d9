import Stubwright.ModFile
import Stubwright.Text.Blank
import Stubwright.Text.Lines

/-!
# Reading module files

A module file is read line by line.  A line is a list of fields, of which the first is the verb; a
verb before a lone opening parenthesis opens a block, whose lines leave the verb out, up to a line
with a lone closing parenthesis.  Fields are bare words or stand in quotes, and a comment runs from
two slashes outside of quotes to the end of the line.
-/

namespace Stubwright.ModFile

/-! ## Fields -/

/-- The line up to a comment; `quote` is the quote that is open. -/
def dropComment (quote : Option Char) : List Char → List Char
  | [] => []
  | c :: cs =>
    match quote with
    | some q => c :: dropComment (if c = q then none else some q) cs
    | none =>
      if c = '/' && cs.head? = some '/' then []
      else if c = '\x22' || c = '\x60' then c :: dropComment (some c) cs
      else c :: dropComment none cs

/-- The blanks that divide fields. -/
def isGap (c : Char) : Bool :=
  c = ' ' || c = '\t'

def isBare (c : Char) : Bool :=
  !Text.isBlank c && c != '\x22' && c != '\x60'

/-- The text up to the closing quote of a field, and the text behind it. -/
def closeQuote? (q : Char) : List Char → Option (List Char × List Char)
  | [] => none
  | c :: cs => if c = q then some ([], cs) else (closeQuote? q cs).map fun (a, b) => (c :: a, b)

theorem length_closeQuote? {q : Char} {cs a b : List Char} (h : closeQuote? q cs = some (a, b)) :
    b.length < cs.length := by
  induction cs generalizing a with
  | nil => simp [closeQuote?] at h
  | cons c cs ih =>
    simp only [closeQuote?] at h
    split at h
    · simp only [Option.some.injEq, Prod.mk.injEq] at h
      simp [← h.2]
    · obtain ⟨⟨a', b'⟩, h', heq⟩ := Option.map_eq_some_iff.1 h
      obtain ⟨rfl, rfl⟩ := Prod.mk.inj heq
      exact Nat.lt_succ_of_lt (ih h')

/-- The fields of a line; nothing when a part of the line is no field. -/
def fields? : List Char → Option (List String)
  | [] => some []
  | c :: cs =>
    if isGap c then fields? cs
    else if c = '\x22' || c = '\x60' then
      match h : closeQuote? c cs with
      | none => none
      | some (inner, rest) =>
        have := length_closeQuote? h
        (fields? rest).map (String.ofList inner :: ·)
    else if isBare c then
      (fields? (cs.dropWhile isBare)).map (String.ofList (c :: cs.takeWhile isBare) :: ·)
    else none
termination_by cs => cs.length
decreasing_by
  all_goals simp only [List.length_cons]
  all_goals first
    | exact Nat.lt_succ_of_le (List.dropWhile_suffix isBare).length_le
    | omega

/-! ## Directives -/

/-- Whether a field names a directory rather than a module. -/
def isDirectory (field : String) : Bool :=
  ["./", "../", "/"].any fun start => start.toList.isPrefixOf field.toList

def replaceForm : String := "replace module/path [v1.2.3] => other/path [v1.2.3]"

/-- What stands in for a module, from the fields behind the arrow. -/
def target (verb : String) : List String → Except LineFault Replace.Target
  | [path] => if isDirectory path then .ok (.dir path) else .error (.needsDirectory verb)
  | [path, version] => .ok (.module path version)
  | _ => .error (.usage verb replaceForm)

def replacement (verb : String) (args : List String) : Except LineFault Replace :=
  let old := args.takeWhile (· != "=>")
  match args.dropWhile (· != "=>") with
  | [] => .error (.missingArrow verb)
  | _ :: new =>
    match old with
    | [path] => (target verb new).map fun t => ⟨path, none, t⟩
    | [path, version] => (target verb new).map fun t => ⟨path, some version, t⟩
    | _ => .error (.usage verb replaceForm)

/-- What has been read of a module file. -/
structure Draft where
  module : Option String
  goVersion : Option String
  requires : List Require
  replaces : List Replace

def Draft.empty : Draft := ⟨none, none, [], []⟩

/-- Takes a directive into a draft.  A verb that does not decide where packages live is passed
over. -/
def Draft.add (d : Draft) (verb : String) (args : List String) : Except LineFault Draft :=
  match verb with
  | "module" => match args with
    | [path] => .ok { d with module := some path }
    | _ => .error (.usage verb "module module/path")
  | "go" => match args with
    | [version] => .ok { d with goVersion := some version }
    | _ => .error (.usage verb "go 1.23")
  | "require" => match args with
    | [path, version] => .ok { d with requires := d.requires ++ [⟨path, version⟩] }
    | _ => .error (.usage verb "require module/path v1.2.3")
  | "replace" =>
    (replacement verb args).map fun r => { d with replaces := d.replaces ++ [r] }
  | _ => .ok d

/-! ## Files -/

/-- The block that is open: its verb and the line that opens it. -/
abbrev Block := Option (String × Nat)

/-- Takes the fields of a line into a draft. -/
def addLine (d : Draft) (block : Block) (line : Nat) :
    List String → Except LineFault (Draft × Block)
  | [] => .ok (d, block)
  | first :: args =>
    match block with
    | some (verb, opened) =>
      if first = ")" && args.isEmpty then .ok (d, none)
      else (d.add verb (first :: args)).map fun d => (d, some (verb, opened))
    | none =>
      if args = ["("] then .ok (d, some (first, line))
      else (d.add first args).map fun d => (d, none)

/-- Takes lines into a draft, from the line number `line` on. -/
def addLines (d : Draft) (block : Block) (line : Nat) :
    List (List Char) → Except Error (Draft × Block)
  | [] => .ok (d, block)
  | text :: texts =>
    match fields? (dropComment none text) with
    | none => .error (.malformed line .quote)
    | some fields =>
      match addLine d block line fields with
      | .error fault => .error (.malformed line fault)
      | .ok (d, block) => addLines d block (line + 1) texts

/-- The module file that a draft amounts to once every block is closed. -/
def Draft.finish (d : Draft) (block : Block) : Except Error ModFile :=
  match block with
  | some (verb, line) => .error (.malformed line (.unterminatedBlock verb))
  | none =>
    match d.module with
    | none => .error .noModule
    | some module =>
      .ok { module, goVersion := d.goVersion, requires := d.requires, replaces := d.replaces }

def parse (text : String) : Except Error ModFile := do
  let (d, block) ← addLines .empty none 1 (Text.lines text.toList)
  d.finish block

end Stubwright.ModFile
