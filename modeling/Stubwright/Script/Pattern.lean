/-!
# Patterns of the shell

A pattern matches texts: `*` any text, `?` any character, and brackets one character of a set.
Quoted characters of a pattern stand for themselves, so that a pattern is read from characters that
each say whether they may have a meaning.
-/

namespace Stubwright.Script

inductive PatternPart where
  | one (c : Char)
  | any
  | run
  /-- A character in one of the given ranges, or in none of them. -/
  | set (outside : Bool) (ranges : List (Char × Char))
deriving DecidableEq, Repr

def classRanges (name : String) : List (Char × Char) :=
  match name with
  | "digit" => [('0', '9')]
  | "lower" => [('a', 'z')]
  | "upper" => [('A', 'Z')]
  | "alpha" => [('a', 'z'), ('A', 'Z')]
  | "alnum" => [('0', '9'), ('a', 'z'), ('A', 'Z')]
  | "space" => [('\t', '\r'), (' ', ' ')]
  | "blank" => [('\t', '\t'), (' ', ' ')]
  | "xdigit" => [('0', '9'), ('a', 'f'), ('A', 'F')]
  | "punct" => [('!', '/'), (':', '@'), ('[', '\x60'), ('\x7b', '~')]
  | _ => []

/-- The ranges between brackets, and the pattern behind the closing one.  A closing bracket at the
very start stands for itself. -/
def bracket? : (fuel : Nat) → (atStart : Bool) → List (Char × Bool) →
    Option (List (Char × Char) × List (Char × Bool))
  | 0, _, _ => none
  | fuel + 1, atStart, cs =>
    match cs with
    | [] => none
    | (c, active) :: rest =>
      let single := (bracket? fuel false rest).map fun (rs, rest) => ((c, c) :: rs, rest)
      if c = ']' && active && !atStart then some ([], rest)
      else if c = '[' && (rest.head?.any (·.1 = ':')) then
        let name := (rest.drop 1).takeWhile (·.1 != ':')
        (bracket? fuel false (rest.drop (name.length + 3))).map fun (rs, rest) =>
          (classRanges (String.ofList (name.map (·.1))) ++ rs, rest)
      else match rest with
        | ('-', true) :: (d, a) :: rest' =>
          if d = ']' && a then single
          else (bracket? fuel false rest').map fun (rs, rest) => ((c, d) :: rs, rest)
        | _ => single

def readPattern : (fuel : Nat) → List (Char × Bool) → List PatternPart
  | 0, _ => []
  | _, [] => []
  | fuel + 1, (c, active) :: rest =>
    if !active then .one c :: readPattern fuel rest
    else if c = '*' then .run :: readPattern fuel rest
    else if c = '?' then .any :: readPattern fuel rest
    else if c = '\\' then
      match rest with
      | (d, _) :: rest => .one d :: readPattern fuel rest
      | [] => [.one c]
    else if c = '[' then
      let outside := rest.head?.any fun (d, a) => a && (d = '!' || d = '^')
      let inner := if outside then rest.drop 1 else rest
      match bracket? (inner.length + 1) true inner with
      | some (ranges, behind) => .set outside ranges :: readPattern fuel behind
      | none => .one c :: readPattern fuel rest
    else .one c :: readPattern fuel rest

/-- A pattern from characters that say whether they may have a meaning. -/
def pattern (cs : List (Char × Bool)) : List PatternPart :=
  readPattern (cs.length + 1) cs

/-- Whether characters that may have a meaning make a text a pattern. -/
def isPattern (cs : List (Char × Bool)) : Bool :=
  cs.any fun (c, active) => active && (c = '*' || c = '?' || c = '[')

/-- Whether some text at the end is taken by what follows. -/
def someTail (next : List Char → Bool) : List Char → Bool
  | [] => next []
  | c :: cs => next (c :: cs) || someTail next cs

def matchesPattern : List PatternPart → List Char → Bool
  | [], cs => cs.isEmpty
  | .run :: ps, cs => someTail (matchesPattern ps) cs
  | .one d :: ps, c :: cs => c = d && matchesPattern ps cs
  | .any :: ps, _ :: cs => matchesPattern ps cs
  | .set outside ranges :: ps, c :: cs =>
    (ranges.any fun (low, high) => low ≤ c && c ≤ high) != outside && matchesPattern ps cs
  | _ :: _, [] => false

def trim (atStart longest : Bool) (ps : List PatternPart) (text : List Char) : List Char :=
  let sizes := List.range (text.length + 1)
  let sizes := if longest then sizes.reverse else sizes
  let part (n : Nat) := if atStart then text.take n else text.drop (text.length - n)
  match sizes.find? fun n => matchesPattern ps (part n) with
  | some n => if atStart then text.drop n else text.take (text.length - n)
  | none => text

end Stubwright.Script
