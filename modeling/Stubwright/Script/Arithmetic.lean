/-!
# Arithmetic of the shell

Expressions over whole numbers of 64 bits and variables, with the usual operators
except those that count up and down.  A result outside of the range wraps around.
-/

namespace Stubwright.Script

inductive Arith where
  | num (n : Int)
  /-- The value of a variable. -/
  | var (name : String)
  | unary (op : String) (arg : Arith)
  /-- An operator between its operands. -/
  | binary (op : String) (left right : Arith)
  /-- The second or the third expression, as the first one is true or not. -/
  | choose (condition left right : Arith)
  | assign (name : String) (value : Arith)
deriving Repr

/-- The number of values that a word of the machine has. -/
def wordSize : Nat := 18446744073709551616

/-- A number within 64 bits. -/
def wrap (n : Int) : Int :=
  Int.bmod n wordSize

/-! ## Numbers -/

def digitValue (c : Char) : Nat :=
  if c.isDigit then c.toNat - '0'.toNat
  else if c.isLower then c.toNat - 'a'.toNat + 10
  else if c.isUpper then c.toNat - 'A'.toNat + 10
  else 36

def ofDigits (base : Nat) (digits : List Char) : Nat :=
  digits.foldl (fun n d => n * base + digitValue d) 0

/-- The number at the start of a text and the text behind it.  Its first digits say its base. -/
def readNatural? (cs : List Char) : Option (Nat × List Char) :=
  let digits (base : Nat) (cs : List Char) := cs.takeWhile fun c => digitValue c < base
  let plain (base : Nat) : Option (Nat × List Char) :=
    let ds := digits base cs
    if ds.isEmpty then none else some (ofDigits base ds, cs.drop ds.length)
  match cs with
  | '0' :: x :: rest =>
    if (x = 'x' || x = 'X') && !(digits 16 rest).isEmpty then
      let ds := digits 16 rest
      some (ofDigits 16 ds, rest.drop ds.length)
    else plain 8
  | _ => plain 10

/-- The number that a text starts with, and whether nothing else stands in the text. -/
def readInteger (text : List Char) : Int × Bool :=
  let cs := text.dropWhile fun c => c = ' ' || c = '\t' || c = '\n'
  let (negative, cs) := match cs with
    | '-' :: cs => (true, cs)
    | '+' :: cs => (false, cs)
    | cs => (false, cs)
  match readNatural? cs with
  | some (n, rest) =>
    (if negative then -(n : Int) else n, rest.all fun c => c = ' ' || c = '\t' || c = '\n')
  | none => (0, false)

/-! ## Reading -/

inductive ArithToken where
  | num (n : Int)
  | name (text : String)
  | op (text : String)
deriving DecidableEq, Repr

/-- The operators, longer ones before those they begin with. -/
def arithOperators : List String :=
  ["<<=", ">>=", "||", "&&", "==", "!=", "<=", ">=", "<<", ">>", "+=", "-=", "*=", "/=", "%=", "&=",
    "|=", "^=", "=", "<", ">", "+", "-", "*", "/", "%", "&", "|", "^", "~", "!", "?", ":", "(", ")"]

/-- The tokens of an expression; nothing if a part of it is none. -/
def arithTokens? : (fuel : Nat) → List Char → Option (List ArithToken)
  | 0, _ => none
  | _, [] => some []
  | fuel + 1, c :: cs =>
    if c = ' ' || c = '\t' || c = '\n' then arithTokens? fuel cs
    else if c.isDigit then do
      let (n, rest) ← readNatural? (c :: cs)
      return .num (wrap n) :: (← arithTokens? fuel rest)
    else if c.isAlpha || c = '_' then
      let name := (c :: cs).takeWhile fun d => d.isAlphanum || d = '_'
      (arithTokens? fuel ((c :: cs).drop name.length)).map (.name (String.ofList name) :: ·)
    else do
      let op ← arithOperators.find? fun op => op.toList.isPrefixOf (c :: cs)
      return .op op :: (← arithTokens? fuel ((c :: cs).drop op.length))

/-- The operators between operands by how tightly they bind, loosest first. -/
def arithLevels : List (List String) :=
  [["||"], ["&&"], ["|"], ["^"], ["&"], ["==", "!="], ["<", ">", "<=", ">="], ["<<", ">>"],
    ["+", "-"], ["*", "/", "%"]]

abbrev ArithReader := StateT (List ArithToken) Option

namespace ArithReader

/-- The operator that comes next, if it is one of these. -/
def operator? (ops : List String) : ArithReader (Option String) := do
  match ← get with
  | .op op :: rest =>
    if ops.contains op then
      set rest
      return some op
    else return none
  | _ => return none

section
variable (expr : ArithReader Arith)

/-- A number, a variable, or an expression in parentheses, with operators before it. -/
def operand : Nat → ArithReader Arith
  | 0 => failure
  | fuel + 1 => do
    match ← get with
    | .num n :: rest =>
      set rest
      return .num n
    | .name name :: rest =>
      set rest
      return .var name
    | .op "(" :: rest =>
      set rest
      let inner ← expr
      match ← operator? [")"] with
      | some _ => return inner
      | none => failure
    | .op op :: rest =>
      if ["-", "+", "!", "~"].contains op then
        set rest
        return .unary op (← operand fuel)
      else failure
    | [] => failure

/-- Operands that operators of one level join, to the left. -/
def joined (item : ArithReader Arith) (ops : List String) : Nat → Arith → ArithReader Arith
  | 0, left => return left
  | fuel + 1, left => do
    match ← operator? ops with
    | some op => joined item ops fuel (.binary op left (← item))
    | none => return left

def level (size : Nat) : List (List String) → ArithReader Arith
  | [] => operand expr size
  | ops :: rest => do
    let item := level size rest
    joined item ops size (← item)

end

/-- An expression with at most `fuel` parts inside one another. -/
def expression : (fuel : Nat) → ArithReader Arith
  | 0 => failure
  | fuel + 1 => do
    let tokens ← get
    let updates := ["=", "+=", "-=", "*=", "/=", "%=", "&=", "|=", "^=", "<<=", ">>="]
    match tokens with
    | .name name :: .op op :: rest =>
      if updates.contains op then
        set rest
        let value ← expression fuel
        let binary := String.ofList op.toList.dropLast
        return .assign name (if op = "=" then value else .binary binary (.var name) value)
    | _ => pure ()
    let condition ← level (expression fuel) (tokens.length + 1) arithLevels
    match ← operator? ["?"] with
    | none => return condition
    | some _ =>
      let left ← expression fuel
      match ← operator? [":"] with
      | none => failure
      | some _ => return .choose condition left (← expression fuel)

end ArithReader

/-- Reads an expression; an empty one is zero. -/
def readArith? (text : List Char) : Option Arith := do
  let tokens ← arithTokens? (text.length + 1) text
  if tokens.isEmpty then return .num 0
  let (e, rest) ← (ArithReader.expression (tokens.length + 1)).run tokens
  if rest.isEmpty then return e else none

/-! ## Evaluating -/

/-- The values of variables that an expression has set, the last one first. -/
abbrev Settings := List (String × Int)

def truth (b : Bool) : Int :=
  if b then 1 else 0

/-- The bits of a number as a natural number. -/
def bits (n : Int) : Nat :=
  (n % (wordSize : Int)).toNat

/-- The value of an operator between two values; nothing for a division by zero. -/
def binaryValue? (op : String) (a b : Int) : Option Int :=
  match op with
  | "|" => some (wrap (bits a ||| bits b : Nat))
  | "^" => some (wrap (bits a ^^^ bits b : Nat))
  | "&" => some (wrap (bits a &&& bits b : Nat))
  | "==" => some (truth (a == b))
  | "!=" => some (truth (a != b))
  | "<" => some (truth (a < b))
  | ">" => some (truth (a > b))
  | "<=" => some (truth (a ≤ b))
  | ">=" => some (truth (a ≥ b))
  | "<<" => some (wrap (a * (Nat.pow 2 (bits b % 64) : Nat)))
  | ">>" => some (a / (Nat.pow 2 (bits b % 64) : Nat))
  | "+" => some (wrap (a + b))
  | "-" => some (wrap (a - b))
  | "*" => some (wrap (a * b))
  | "/" => if b = 0 then none else some (wrap (a.tdiv b))
  | "%" => if b = 0 then none else some (a.tmod b)
  | _ => none

/-- The value of an expression; nothing if it has none. -/
def Arith.eval (lookup : String → Option Int) : Arith → StateT Settings Option Int
  | .num n => return n
  | .var name => do
    match (← get).lookup name with
    | some n => return n
    | none => lookup name
  | .unary op arg => do
    let a ← arg.eval lookup
    return match op with
      | "-" => wrap (-a)
      | "!" => truth (a == 0)
      | "~" => -a - 1
      | _ => a
  | .binary op left right => do
    let a ← left.eval lookup
    if op = "&&" then
      if a = 0 then return 0
      return truth ((← right.eval lookup) != 0)
    else if op = "||" then
      if a != 0 then return 1
      return truth ((← right.eval lookup) != 0)
    else
      let b ← right.eval lookup
      binaryValue? op a b
  | .choose condition left right => do
    if (← condition.eval lookup) != 0 then left.eval lookup else right.eval lookup
  | .assign name value => do
    let n ← value.eval lookup
    modify ((name, n) :: ·)
    return n

/-- The value of an expression as text, and the variables that it sets. -/
def evalArith? (lookup : String → Option Int) (text : List Char) : Option (Int × Settings) := do
  let e ← readArith? text
  (e.eval lookup).run []

end Stubwright.Script
