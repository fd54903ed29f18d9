/-!
# Numbers with a fraction

A number with a fraction is kept as the nearest number that 64 bits hold: a significand of 53 bits
times a power of two.  It is written with the fewest decimal digits that are read as the same
number.  All arithmetic is exact, on natural numbers.
-/

namespace Stubwright

/-- A number with a fraction, as it is read: a sign, digits, and how many of them stand behind the
point. -/
structure Decimal where
  /-- Whether the number is below zero. -/
  negative : Bool
  digits : Nat
  /-- The number of digits behind the point. -/
  places : Nat
deriving DecidableEq, Repr, Inhabited

namespace Decimal

/-- A significand times a power of two. -/
structure Binary where
  significand : Nat
  power : Int
deriving DecidableEq, Repr, Inhabited

/-- The number of bits of a significand. -/
def precision : Nat := 53

def leastPower : Int := -1074

/-- A quotient as a whole number; a half goes to the even neighbour. -/
def roundToEven (numerator denominator : Nat) : Nat :=
  let low := numerator / denominator
  let twice := 2 * (numerator % denominator)
  if twice > denominator || (twice = denominator && low % 2 = 1) then low + 1 else low

def scale (base : Nat) (power : Int) (numerator denominator : Nat) : Nat × Nat :=
  (numerator * Nat.pow base power.toNat, denominator * Nat.pow base (-power).toNat)

/-- The nearest significand and power of two to a fraction above zero. -/
def nearest (numerator denominator : Nat) : Binary :=
  let guess : Int := (numerator.log2 : Int) - (denominator.log2 : Int)
  let (n, d) := scale 2 (-guess) numerator denominator
  let top := if d ≤ n then guess else guess - 1
  let power := max (top + 1 - precision) leastPower
  let (n, d) := scale 2 (-power) numerator denominator
  let significand := roundToEven n d
  if significand = Nat.pow 2 precision then ⟨significand / 2, power + 1⟩ else ⟨significand, power⟩

/-- The least power of ten that is above a fraction. -/
def magnitude (numerator denominator : Nat) : Int :=
  if denominator ≤ numerator then (Nat.toDigits 10 (numerator / denominator)).length
  else
    let steps := (List.range 400).find? fun j => denominator ≤ numerator * Nat.pow 10 j
    1 - (steps.getD 0 : Int)

/-- Digits and a power of ten, if they are the nearest ones of their number to a fraction and are
read as the same number. -/
def candidate? (value : Binary) (numerator denominator : Nat) (exponent : Int) :
    Option (Nat × Int) :=
  let (n, d) := scale 10 (-exponent) numerator denominator
  let reads (digits : Nat) : Bool :=
    let (n, d) := scale 10 exponent digits 1
    0 < digits && nearest n d = value
  let first := roundToEven n d
  let second := if first = n / d then first + 1 else n / d
  ([first, second].find? reads).map fun digits => (digits, exponent)

def mostDigits : Nat := 17

/-- The fewest digits that are read as a number above zero, and their power of ten. -/
def shortest (value : Binary) : Nat × Int :=
  let (n, d) := scale 2 value.power value.significand 1
  let top := magnitude n d
  let found := (List.range mostDigits).findSome? fun (count : Nat) =>
    candidate? value n d (top - ((count : Int) + 1))
  found.getD (value.significand, 0)

/-- The text of digits times a power of ten, without a sign.  Numbers between a hundred thousandth
and ten to the sixteenth are written with a point only. -/
def layout (digits : List Char) (exponent : Int) : List Char :=
  let point : Int := digits.length + exponent
  let zeros (count : Int) : List Char := List.replicate count.toNat '0'
  if 0 ≤ exponent && point ≤ 16 then digits ++ zeros exponent ++ ['.', '0']
  else if 0 < point && point ≤ 16 then
    digits.take point.toNat ++ '.' :: digits.drop point.toNat
  else if -5 < point && point ≤ 0 then '0' :: '.' :: zeros (-point) ++ digits
  else
    let behind := digits.drop 1
    digits.take 1 ++ (if behind.isEmpty then [] else '.' :: behind)
      ++ 'e' :: (toString (point - 1)).toList

/-- What is kept of a number apart from its sign. -/
def binary (x : Decimal) : Binary :=
  if x.digits = 0 then ⟨0, 0⟩ else nearest x.digits (Nat.pow 10 x.places)

def text (x : Decimal) : String :=
  let sign := if x.negative then "-" else ""
  if x.binary.significand = 0 then sign ++ "0.0"
  else
    let (digits, exponent) := shortest x.binary
    let all := Nat.toDigits 10 digits
    let kept := (all.reverse.dropWhile (· = '0')).reverse
    sign ++ String.ofList (layout kept (exponent + (all.length - kept.length : Nat)))

/-- The whole number that is kept, if it is one. -/
def whole? (x : Decimal) : Option Int :=
  let (n, d) := scale 2 x.binary.power x.binary.significand 1
  if n % d = 0 then some (if x.negative then -((n / d : Nat) : Int) else (n / d : Nat)) else none

end Decimal

end Stubwright
