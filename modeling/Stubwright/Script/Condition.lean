import Stubwright.Script.Shell

/-!
# Conditions of the shell

The truth of what `test` is asked, by the number of its arguments.  A question that is malformed has
no truth.
-/

namespace Stubwright.Script

/-- Whether something stands at a path that fits a question about files. -/
def fileCondition (s : Shell) (op path : String) : Bool :=
  match s.find? path, op with
  | none, _ => false
  | some _, "-e" | some _, "-r" | some _, "-w" | some _, "-O" | some _, "-G" => true
  | some .dir, "-d" | some .dir, "-x" | some .dir, "-s" => true
  | some (.file ..), "-f" | some (.program _), "-f" => true
  | some (.file _ _ mode), "-x" => mode &&& 0o111 != 0
  | some (.program _), "-x" | some (.program _), "-s" => true
  | some (.file _ bytes _), "-s" => !bytes.isEmpty
  | some .null, "-c" => true
  | _, _ => false

/-- The questions about one argument. -/
def unaryOperators : List String :=
  ["-n", "-z", "-e", "-f", "-d", "-r", "-w", "-x", "-s", "-h", "-L", "-p", "-S", "-b", "-c", "-t",
    "-u", "-g", "-k", "-O", "-G"]

/-- The truth of a question about one argument. -/
def unaryCondition (s : Shell) (op arg : String) : Bool :=
  if op = "-n" then arg != "" else if op = "-z" then arg == "" else fileCondition s op arg

def compareNumbers (op : String) (a b : Int) : Bool :=
  match op with
  | "-eq" => a == b
  | "-ne" => a != b
  | "-lt" => a < b
  | "-le" => a ≤ b
  | "-gt" => a > b
  | _ => a ≥ b

def numberOperators : List String := ["-eq", "-ne", "-lt", "-le", "-gt", "-ge"]

/-- The number that an argument writes in base ten. -/
def decimal? (arg : String) : Option Int :=
  let cs := arg.toList.dropWhile fun c => c = ' ' || c = '\t' || c = '\n'
  let (negative, cs) := match cs with
    | '-' :: cs => (true, cs)
    | '+' :: cs => (false, cs)
    | cs => (false, cs)
  let digits := cs.takeWhile Char.isDigit
  let rest := cs.drop digits.length
  if digits.isEmpty || !rest.all (fun c => c = ' ' || c = '\t' || c = '\n') then none
  else some (if negative then -(ofDigits 10 digits : Int) else ofDigits 10 digits)

/-- The comparisons of two arguments. -/
def isBinaryOperator (s : Shell) (op : String) : Bool :=
  ["=", "!=", "<", ">", "-ef", "-nt", "-ot"].contains op || numberOperators.contains op
    || (op == "==" && s.dialect == .extended)

def binaryCondition? (s : Shell) (a op b : String) : Option Bool :=
  match op with
  | "=" | "==" => some (a == b)
  | "!=" => some (a != b)
  | "<" => some (a < b)
  | ">" => some (b < a)
  | "-ef" =>
    match s.find? a, s.find? b with
    | some (.file p ..), some (.file q ..) => some (p == q)
    | _, _ => some false
  | "-nt" | "-ot" => some false
  | _ => do return compareNumbers op (← decimal? a) (← decimal? b)

def condition? (s : Shell) : (fuel : Nat) → List String → Option Bool
  | 0, _ => none
  | fuel + 1, args =>
    let general (_ : Unit) : Option Bool :=
      let before := args.takeWhile (· != "-o")
      match args.drop before.length with
      | _ :: rest => do return (← condition? s fuel before) || (← condition? s fuel rest)
      | [] =>
        let before := args.takeWhile (· != "-a")
        match args.drop before.length with
        | _ :: rest => do return (← condition? s fuel before) && (← condition? s fuel rest)
        | [] =>
          match args with
          | "!" :: rest => (condition? s fuel rest).map (!·)
          | _ => none
    match args with
    | [] => some false
    | [a] => some (a != "")
    | [a, b] =>
      if a = "!" then some (b == "")
      else if unaryOperators.contains a then some (unaryCondition s a b)
      else none
    | [a, op, b] =>
      if isBinaryOperator s op then binaryCondition? s a op b
      else if op = "-a" then some (a != "" && b != "")
      else if op = "-o" then some (a != "" || b != "")
      else if a = "!" then (condition? s fuel [op, b]).map (!·)
      else if a = "(" && b = ")" then some (op != "")
      else none
    | [a, b, c, d] =>
      if a = "!" then (condition? s fuel [b, c, d]).map (!·)
      else if a = "(" && d = ")" then condition? s fuel [b, c]
      else general ()
    | _ => general ()

def conditionStatus (s : Shell) (args : List String) : Nat :=
  match condition? s (2 * args.length + 2) args with
  | some true => 0
  | some false => 1
  | none => 2

end Stubwright.Script
