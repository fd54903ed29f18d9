import Stubwright.Decimal

/-!
# Structured output

Values of the JSON format and their text: two spaces of indentation a level, a space behind the
colon of a field, and the shortest escapes.  An object keeps its fields in the order they were
given; `sortKeys` puts them into alphabetical order at every level.
-/

namespace Stubwright

/-- A value of the JSON format. -/
inductive Json where
  | null
  | bool (value : Bool)
  | num (value : Int)
  | real (value : Decimal)
  | str (value : String)
  | arr (items : List Json)
  | obj (fields : List (String × Json))
deriving Inhabited

namespace Json

def hexDigit (n : Nat) : Char :=
  if n < 10 then Char.ofNat (0x30 + n) else Char.ofNat (0x57 + n)

/-- A character inside a string literal.  Only quotes, backslashes and the characters below U+0020
are escaped. -/
def escapeChar (c : Char) : List Char :=
  if c = '\x22' then ['\\', '\x22']
  else if c = '\\' then ['\\', '\\']
  else if c = '\x08' then ['\\', 'b']
  else if c = '\x0c' then ['\\', 'f']
  else if c = '\n' then ['\\', 'n']
  else if c = '\x0d' then ['\\', 'r']
  else if c = '\t' then ['\\', 't']
  else if c.toNat < 0x20 then
    ['\\', 'u', '0', '0', hexDigit (c.toNat / 16), hexDigit (c.toNat % 16)]
  else [c]

def quote (s : String) : String :=
  String.ofList ('\x22' :: s.toList.flatMap escapeChar ++ ['\x22'])

def lineBreak (level : Nat) : String :=
  String.ofList ('\n' :: List.replicate (2 * level) ' ')

mutual

/-- The text of a value that stands on a line of the given level. -/
def render (level : Nat) : Json → String
  | .null => "null"
  | .bool b => if b then "true" else "false"
  | .num n => toString n
  | .real x => x.text
  | .str s => quote s
  | .arr items =>
    if items.isEmpty then "[]"
    else "[" ++ renderItems (level + 1) items ++ lineBreak level ++ "]"
  | .obj fields =>
    if fields.isEmpty then "\x7b\x7d"
    else "\x7b" ++ renderFields (level + 1) fields ++ lineBreak level ++ "\x7d"

/-- The items of an array, each on a line of its own. -/
def renderItems (level : Nat) : List Json → String
  | [] => ""
  | [item] => lineBreak level ++ item.render level
  | item :: items => lineBreak level ++ item.render level ++ "," ++ renderItems level items

def renderFields (level : Nat) : List (String × Json) → String
  | [] => ""
  | [(key, value)] => lineBreak level ++ quote key ++ ": " ++ value.render level
  | (key, value) :: fields =>
    lineBreak level ++ quote key ++ ": " ++ value.render level ++ "," ++ renderFields level fields

end

/-- A document: the text of a value and a line feed. -/
def document (value : Json) : String :=
  value.render 0 ++ "\n"

def insertField (key : String) (value : Json) : List (String × Json) → List (String × Json)
  | [] => [(key, value)]
  | (k, v) :: fields =>
    if key ≤ k then (key, value) :: (k, v) :: fields else (k, v) :: insertField key value fields

mutual

/-- The value with the fields of every object in alphabetical order. -/
def sortKeys : Json → Json
  | .arr items => .arr (sortItems items)
  | .obj fields => .obj (sortFields fields)
  | value => value

def sortItems : List Json → List Json
  | [] => []
  | item :: items => item.sortKeys :: sortItems items

def sortFields : List (String × Json) → List (String × Json)
  | [] => []
  | (key, value) :: fields => insertField key value.sortKeys (sortFields fields)

end

/-- A number with a sign, digits and places behind the point.  A whole number is kept as such if 64
bits hold it. -/
def number (negative : Bool) (digits places : Nat) : Json :=
  let limit := if negative then 9223372036854775808 else 18446744073709551615
  if places = 0 && digits ≤ limit then .num (if negative then -(digits : Int) else digits)
  else .real ⟨negative, digits, places⟩

/-- A value, or `null` in the place of none. -/
def ofOption {α : Type} (encode : α → Json) : Option α → Json
  | some value => encode value
  | none => .null

def strings (items : List String) : Json :=
  .arr (items.map .str)

end Json

end Stubwright
