import Stubwright.Script.Arithmetic

/-!
# Texts that commands write

What `echo` and `printf` write.  Both know escapes, which begin with a backslash; `printf` puts its
arguments in the slots of a format, which is used anew as long as arguments are left.
-/

namespace Stubwright.Script

/-! ## Escapes -/

def isOctal (c : Char) : Bool :=
  '0' ≤ c && c ≤ '7'

/-- The character of a number, which wraps at a byte. -/
def byteChar (n : Nat) : Char :=
  Char.ofNat (n % 256)

/-- The character that a letter behind a backslash stands for. -/
def escapeChar? (c : Char) : Option Char :=
  [('a', '\x07'), ('b', '\x08'), ('f', '\x0c'), ('n', '\n'), ('r', '\r'), ('t', '\t'),
    ('v', '\x0b'), ('\\', '\\')].lookup c

/-- The character of an escape, from what stands behind the backslash, and how many characters the
escape takes there.  A backslash before anything else stands for itself. -/
def escape (cs : List Char) : Char × Nat :=
  match cs with
  | [] => ('\\', 0)
  | c :: _ =>
    match escapeChar? c with
    | some d => (d, 1)
    | none =>
      let digits := (cs.take 3).takeWhile isOctal
      if digits.isEmpty then ('\\', 0) else (byteChar (ofDigits 8 digits), digits.length)

/-- A text with its escapes carried out, and whether it asked for the end of all output.  An octal
number may have a zero before its digits. -/
def unescape : (fuel : Nat) → List Char → List Char × Bool
  | 0, cs => (cs, false)
  | _, [] => ([], false)
  | fuel + 1, '\\' :: cs =>
    if cs.head? = some 'c' then ([], true)
    else
      let cs := match cs with
        | '0' :: d :: rest => if isOctal d then d :: rest else cs
        | _ => cs
      let (c, n) := escape cs
      let (out, stop) := unescape fuel (cs.drop n)
      (c :: out, stop)
  | fuel + 1, c :: cs =>
    let (out, stop) := unescape fuel cs
    (c :: out, stop)

/-- A text with its escapes carried out, and whether it asked for the end of all output. -/
def unescaped (text : List Char) : List Char × Bool :=
  unescape (text.length + 1) text

/-- What the shell's own `echo` writes. -/
def echo (args : List String) : List Char :=
  let (args, newline) := match args with
    | "-n" :: rest => (rest, [])
    | args => (args, ['\n'])
  let (out, stop) := unescaped (String.intercalate " " args).toList
  if stop then out else out ++ newline

/-- Whether an argument is made of the options of `echo`. -/
def isEchoOption (arg : String) : Bool :=
  match arg.toList with
  | '-' :: c :: cs => (c :: cs).all fun c => c = 'n' || c = 'e' || c = 'E'
  | _ => false

/-- What an `echo` writes that knows escapes only if it is asked to. -/
def plainEcho (args : List String) : List Char :=
  let options := args.takeWhile isEchoOption
  let letters := options.flatMap fun o => o.toList.drop 1
  let escapes := (letters.filter (· != 'n')).getLast? = some 'e'
  let text := (String.intercalate " " (args.drop options.length)).toList
  let (out, stop) := if escapes then unescaped text else (text, false)
  if stop || letters.contains 'n' then out else out ++ ['\n']

/-! ## Formats -/

structure Slot where
  flags : List Char
  width : Nat
  precision : Option Nat

namespace Slot

def has (p : Slot) (flag : Char) : Bool :=
  p.flags.contains flag

def pad (p : Slot) (text : List Char) : List Char :=
  let blanks := List.replicate (p.width - text.length) ' '
  if p.has '-' then text ++ blanks else blanks ++ text

/-- A number that consists of a sign or mark and digits, filled up to the width. -/
def number (p : Slot) (mark digits : List Char) : List Char :=
  let digits := match p.precision with
    | some n => List.replicate (n - digits.length) '0' ++ digits
    | none => digits
  if p.has '0' && !p.has '-' && p.precision.isNone then
    mark ++ List.replicate (p.width - mark.length - digits.length) '0' ++ digits
  else p.pad (mark ++ digits)

/-- The mark before a number that is negative or not. -/
def sign (p : Slot) (negative : Bool) : List Char :=
  if negative then ['-'] else if p.has '+' then ['+'] else if p.has ' ' then [' '] else []

/-- A number in a base other than ten, or without a sign. -/
def unsigned (p : Slot) (letter : Char) (n : Nat) : List Char :=
  let base := if letter = 'o' then 8 else if letter = 'u' then 10 else 16
  let digits := Nat.toDigits base n
  let digits := if letter = 'X' then digits.map Char.toUpper else digits
  let mark := if p.has '#' && n != 0 then
      (if letter = 'o' then ['0'] else if letter = 'u' then [] else ['0', letter])
    else []
  p.number mark digits

/-- A number with digits behind a point, which are rounded. -/
def fixed (p : Slot) (negative : Bool) (numerator denominator : Nat) : List Char :=
  let places := p.precision.getD 6
  let scaled := numerator * Nat.pow 10 places
  let low := scaled / denominator
  let twice := 2 * (scaled % denominator)
  let up := twice > denominator || (twice = denominator && low % 2 = 1)
  let rounded := if up then low + 1 else low
  let whole := Nat.toDigits 10 (rounded / Nat.pow 10 places)
  let behind := Nat.toDigits 10 (rounded % Nat.pow 10 places)
  let behind := List.replicate (places - behind.length) '0' ++ behind
  let digits := if places = 0 then whole else whole ++ '.' :: behind
  { p with precision := none }.number (p.sign negative) digits

end Slot

/-- The number of an argument, and whether it is one.  A quote before a character stands for the
character's number. -/
def argInteger (arg : String) : Int × Bool :=
  match arg.toList with
  | '\x22' :: c :: _ => (c.toNat, true)
  | '\x27' :: c :: _ => (c.toNat, true)
  | [] => (0, true)
  | cs => readInteger cs

/-- The sign, numerator and denominator of an argument with a point, and whether it is a number. -/
def argDecimal (arg : String) : Bool × Nat × Nat × Bool :=
  let (negative, cs) := match arg.toList with
    | '-' :: cs => (true, cs)
    | '+' :: cs => (false, cs)
    | cs => (false, cs)
  let whole := cs.takeWhile Char.isDigit
  match cs.drop whole.length with
  | '.' :: rest =>
    let behind := rest.takeWhile Char.isDigit
    (negative, ofDigits 10 (whole ++ behind), Nat.pow 10 behind.length, behind.length = rest.length)
  | rest => (negative, ofDigits 10 whole, 1, rest.isEmpty)

/-- What was written for a format. -/
structure Written where
  /-- The text. -/
  out : List Char
  left : List String
  /-- The status: 1 if an argument was no number, 2 if the format is malformed. -/
  status : Nat
  /-- Whether an argument asked for the end of all output. -/
  stopped : Bool

/-- A text before what was written. -/
def Written.after (out : List Char) (w : Written) : Written :=
  { w with out := out ++ w.out }

/-- The most that a width or precision counts. -/
def widthLimit : Nat := 1000000

/-- A width or precision and the format behind it, with the arguments that are left. -/
def readWidth (cs : List Char) (args : List String) : Option Nat × Bool × List Char × List String :=
  match cs with
  | '*' :: cs =>
    let n := (argInteger (args.headD "")).1
    (some (min n.natAbs widthLimit), n < 0, cs, args.tail)
  | _ =>
    let digits := cs.takeWhile Char.isDigit
    let width := if digits.isEmpty then none else some (min (ofDigits 10 digits) widthLimit)
    (width, false, cs.drop digits.length, args)

/-- A slot from its flags on, with the format behind it and the arguments that are left. -/
def readSlot (cs : List Char) (args : List String) : Slot × List Char × List String :=
  let flags := cs.takeWhile fun c => "#-+ 0".toList.contains c
  let (width, left, cs, args) := readWidth (cs.drop flags.length) args
  let flags := if left then '-' :: flags else flags
  match cs with
  | '.' :: cs =>
    let (precision, _, cs, args) := readWidth cs args
    (⟨flags, width.getD 0, some (precision.getD 0)⟩, cs, args)
  | _ => (⟨flags, width.getD 0, none⟩, cs, args)

/-- What stands in a slot for an argument, the status that gives, and whether all output ends; if
the letter of the slot is known. -/
def fill? (p : Slot) (letter : Char) (arg : Option String) : Option (List Char × Nat × Bool) :=
  let text := arg.getD ""
  let (n, ok) := argInteger text
  let status := if ok then 0 else 1
  let cut (cs : List Char) := match p.precision with
    | some most => cs.take most
    | none => cs
  match letter with
  | 's' => some (p.pad (cut text.toList), 0, false)
  | 'b' =>
    let (out, stop) := unescaped text.toList
    some (p.pad (cut out), 0, stop)
  | 'c' => some (p.pad [text.toList.headD '\x00'], 0, false)
  | 'd' | 'i' => some (p.number (p.sign (n < 0)) (Nat.toDigits 10 n.natAbs), status, false)
  | 'o' | 'u' | 'x' | 'X' => some (p.unsigned letter (bits n), status, false)
  | 'f' | 'F' =>
    let (negative, numerator, denominator, ok) := argDecimal text
    some (p.fixed negative numerator denominator, if ok then 0 else 1, false)
  | _ => none

/-- One pass over a format. -/
def formatOnce : (fuel : Nat) → List Char → List String → Written
  | 0, _, args => ⟨[], args, 0, false⟩
  | _, [], args => ⟨[], args, 0, false⟩
  | fuel + 1, '%' :: '%' :: cs, args => (formatOnce fuel cs args).after ['%']
  | fuel + 1, '%' :: cs, args =>
    let (slot, cs, args) := readSlot cs args
    match cs with
    | [] => ⟨[], args, 2, false⟩
    | letter :: cs =>
      match fill? slot letter args.head? with
      | none => ⟨[], args, 2, false⟩
      | some (out, status, true) => ⟨out, args.tail, status, true⟩
      | some (out, status, false) =>
        let w := (formatOnce fuel cs args.tail).after out
        { w with status := max status w.status }
  | fuel + 1, '\\' :: cs, args =>
    let (c, n) := escape cs
    (formatOnce fuel (cs.drop n) args).after [c]
  | fuel + 1, c :: cs, args => (formatOnce fuel cs args).after [c]

/-- What `printf` writes for a format and arguments, and its status. -/
def printf (format : List Char) : (rounds : Nat) → List String → List Char × Nat
  | 0, _ => ([], 0)
  | rounds + 1, args =>
    let w := formatOnce (format.length + 1) format args
    if w.stopped || w.status = 2 || w.left.isEmpty || w.left.length = args.length then
      (w.out, w.status)
    else
      let (out, status) := printf format rounds w.left
      (w.out ++ out, max w.status status)

/-- What `printf` writes, and its status. -/
def printfArgs (args : List String) : List Char × Nat :=
  match args with
  | [] => ([], 2)
  | "--" :: format :: args => printf format.toList (args.length + 1) args
  | format :: args => printf format.toList (args.length + 1) args

end Stubwright.Script
