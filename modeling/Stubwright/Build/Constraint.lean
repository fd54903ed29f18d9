import Stubwright.Build.Target
import Stubwright.Text.Alphanumeric
import Stubwright.Text.Blank
import Stubwright.Text.Lines

/-!
# Build constraints

A constraint is a boolean expression over tags: `!` binds tighter than `&&`, which binds tighter
than `||`, and parentheses group.  A file states one on a line that starts with `//go:build`, in the
lines of comments and blanks at its top.  A constraint that cannot be read excludes nothing.
-/

namespace Stubwright.Build

namespace Constraint

/-! ## Tokens -/

/-- A token of a constraint. -/
inductive Tok where
  | or
  | and
  | not
  | lParen
  | rParen
  | word (name : String)
  /-- A character that has no place in a constraint. -/
  | stray (char : Char)
deriving DecidableEq, Repr

/-- The characters a tag is made of. -/
def isWordChar (c : Char) : Bool :=
  Text.isAlphanumeric c || c = '_' || c = '.'

/-- The text without its first character, if that is the given one. -/
def dropOne (c : Char) : List Char → List Char
  | [] => []
  | d :: ds => if d = c then ds else d :: ds

theorem length_dropOne_le (c : Char) (cs : List Char) : (dropOne c cs).length ≤ cs.length := by
  cases cs with
  | nil => simp [dropOne]
  | cons d ds => simp only [dropOne]; split <;> simp

/-- The tokens of a text.  An operator may be written with one or two of its characters. -/
def tokens : List Char → List Tok
  | [] => []
  | c :: cs =>
    if c = ' ' || c = '\t' then tokens cs
    else if c = '(' then .lParen :: tokens cs
    else if c = ')' then .rParen :: tokens cs
    else if c = '!' then .not :: tokens cs
    else if c = '&' then .and :: tokens (dropOne c cs)
    else if c = '|' then .or :: tokens (dropOne c cs)
    else if isWordChar c then
      .word (String.ofList (c :: cs.takeWhile isWordChar)) :: tokens (cs.dropWhile isWordChar)
    else .stray c :: tokens cs
termination_by cs => cs.length
decreasing_by
  all_goals simp only [List.length_cons]
  all_goals first
    | exact Nat.lt_succ_of_le (length_dropOne_le _ _)
    | exact Nat.lt_succ_of_le (List.dropWhile_suffix isWordChar).length_le
    | omega

/-! ## Reading

A constraint has its value as soon as it is read: no tree is built. -/

/-- What a tag and the operators stand for, in values of some kind. -/
structure Meaning (α : Type) where
  tag : String → α
  not : α → α
  and : α → α → α
  or : α → α → α

/-- Whether a constraint holds for the target. -/
def truth : Meaning Bool where
  tag := holdsTag
  not value := !value
  and left right := left && right
  or left right := left || right

/-- A reader of values: a value and the tokens behind it. -/
abbrev Reader (α : Type) :=
  List Tok → Option (α × List Tok)

variable {α : Type}

/-- An operand: a tag, a negation, or a constraint in parentheses, which `nested` reads. -/
def operand (m : Meaning α) (nested : Reader α) : Reader α
  | .not :: ts => (operand m nested ts).map fun (value, rest) => (m.not value, rest)
  | .lParen :: ts =>
    match nested ts with
    | some (inner, .rParen :: rest) => some (inner, rest)
    | _ => none
  | .word name :: ts => some (m.tag name, ts)
  | _ => none

/-- Reads on, for at most `n` operators, from the left side of a chain that `op` joins; `item` reads
what stands between two operators. -/
def chain (op : Tok) (join : α → α → α) (item : Reader α) : Nat → α → Reader α
  | 0, left, ts => some (left, ts)
  | n + 1, left, ts =>
    match ts with
    | t :: rest =>
      if t = op then
        match item rest with
        | some (right, rest') => chain op join item n (join left right) rest'
        | none => none
      else some (left, ts)
    | [] => some (left, [])

/-- A chain of items that `op` joins, to the left. -/
def joined (op : Tok) (join : α → α → α) (item : Reader α) : Reader α := fun ts =>
  match item ts with
  | some (left, rest) => chain op join item rest.length left rest
  | none => none

/-- A constraint with at most `depth` levels of parentheses. -/
def within (m : Meaning α) : (depth : Nat) → Reader α
  | 0, _ => none
  | depth + 1, ts => joined .or m.or (joined .and m.and (operand m (within m depth))) ts

/-- The value of a token list that is a constraint as a whole. -/
def ofTokens? (m : Meaning α) (ts : List Tok) : Option α :=
  match within m (ts.length + 1) ts with
  | some (value, []) => some value
  | _ => none

/-- Whether the constraint that a text states holds for the target; none if it states none. -/
def value? (text : List Char) : Option Bool :=
  ofTokens? truth (tokens text)

end Constraint

/-! ## Files -/

/-- What a line at the top of a file says. -/
inductive HeaderLine where
  | constraint (text : List Char)
  /-- A blank line or the start of a comment. -/
  | skipped
  /-- The first line of something else. -/
  | other

/-- Classifies a line at the top of a file. -/
def HeaderLine.ofLine (line : List Char) : HeaderLine :=
  let line := Text.trim line
  let mark := "//go:build".toList
  if mark.isPrefixOf line then .constraint (line.drop mark.length)
  else if line.isEmpty || "//".toList.isPrefixOf line || "/*".toList.isPrefixOf line then .skipped
  else .other

/-- Whether the first constraint among these lines, if there is one at the top, holds for the
target. -/
def linesAllow : List (List Char) → Bool
  | [] => true
  | line :: lines =>
    match HeaderLine.ofLine line with
    | .constraint text => (Constraint.value? text).getD true
    | .skipped => linesAllow lines
    | .other => true

/-- Whether the constraint of a file, if it has one, holds for the target. -/
def allows (text : List Char) : Bool :=
  linesAllow (Text.lines text)

end Stubwright.Build
