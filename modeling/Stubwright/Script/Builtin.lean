import Stubwright.Script.Condition
import Stubwright.Script.Pattern

/-!
# Commands of the shell itself

The commands that change the state of a shell or answer from it, and run nothing else.
-/

namespace Stubwright.Script

/-- The commands whose errors end the run, and whose assignments stay. -/
def specialBuiltins : List String :=
  [":", ".", "break", "continue", "eval", "exec", "exit", "export", "local", "readonly", "return",
    "set", "shift", "times", "trap", "unset"]

/-- The other commands that the shell has itself. -/
def plainBuiltins : List String :=
  ["alias", "cd", "chdir", "command", "echo", "false", "hash", "jobs", "kill", "printf", "pwd",
    "read", "test", "[", "true", "type", "ulimit", "umask", "unalias", "wait"]

/-- The commands of the extended shell. -/
def extendedBuiltins : List String := ["[[", "source", "let", "declare", "typeset", "shopt"]

def isBuiltin (s : Shell) (name : String) : Bool :=
  specialBuiltins.contains name || plainBuiltins.contains name
    || (s.dialect == .extended && extendedBuiltins.contains name)

def splitAssignment (arg : String) : String × Option String :=
  let name := arg.toList.takeWhile (· != '=')
  match arg.toList.drop name.length with
  | [] => (arg, none)
  | _ :: value => (String.ofList name, some (String.ofList value))

/-- Does something with each variable that arguments name, after setting it where they say so. -/
def declareVars (mark : Shell → String → Shell) (args : List String) (s : Shell) : Shell :=
  args.foldl (fun s arg =>
    let (name, value) := splitAssignment arg
    if s.flow = .finish then s
    else if !isName name.toList then s.fail
    else
      let s := match value with
        | some value => s.setVar name value
        | none => s
      if s.flow = .finish then s else mark s name) (s.withStatus 0)

/-- Hides a variable in the running function. -/
def hideVar (s : Shell) (name : String) : Shell :=
  match s.hidden with
  | [] => s.fail
  | frame :: outer =>
    if frame.any fun (n, _) => n == name then s
    else
      let s := { s with hidden := ((name, s.vars.lookup name) :: frame) :: outer }
      if s.dialect == .extended then s.restore name none else s

/-- Makes variables local to the running function. -/
def makeLocal (args : List String) (s : Shell) : Shell :=
  if s.hidden.isEmpty then s.fail
  else args.foldl (fun s arg =>
    let (name, value) := splitAssignment arg
    if s.flow = .finish || arg == "-" then s
    else if !isName name.toList then s.fail
    else
      let s := hideVar s name
      match value with
      | some value => s.setVar name value
      | none => s) (s.withStatus 0)

def unset (args : List String) (s : Shell) : Shell :=
  match args with
  | "-f" :: names =>
    { s.withStatus 0 with functions := s.functions.filter fun (n, _) => !names.contains n }
  | _ =>
    let names := if args.head? = some "-v" then args.drop 1 else args
    names.foldl (fun s name =>
      if !isName name.toList || (s.vars.lookup name).any (·.locked) then s.fail
      else s.restore name none) (s.withStatus 0)

/-! ## Options -/

/-- Sets the option of a letter; a letter that is none gives nothing. -/
def setLetter? (s : Shell) (on : Bool) (letter : Char) : Option Shell :=
  match letter with
  | 'e' => some { s with options := { s.options with failing := on } }
  | 'u' => some { s with options := { s.options with strict := on } }
  | 'f' => some { s with options := { s.options with noPatterns := on } }
  | 'n' => some (if on then { s with flow := .finish } else s)
  | _ =>
    let known := if s.dialect == .extended then "xvamCbhkptBEHPT" else "xvamCbIiVEsp"
    if known.toList.contains letter then some s else none

def namedOptions : List (String × Char) :=
  [("errexit", 'e'), ("nounset", 'u'), ("noglob", 'f'), ("noexec", 'n'), ("xtrace", 'x'),
    ("verbose", 'v'), ("allexport", 'a'), ("monitor", 'm'), ("noclobber", 'C'), ("notify", 'b')]

def setNamed? (s : Shell) (on : Bool) (name : String) : Option Shell :=
  if name = "pipefail" && s.dialect == .extended then
    some { s with options := { s.options with piped := on } }
  else if name = "posix" && s.dialect == .extended then some s
  else (namedOptions.lookup name).bind (setLetter? s on)

/-- Sets the options that letters name; the letter `o` takes a name from the arguments. -/
def setLetters? (s : Shell) (on : Bool) : List Char → List String → Option (Shell × List String)
  | [], args => some (s, args)
  | 'o' :: cs, args =>
    match args with
    | name :: args => (setNamed? s on name).bind fun s => setLetters? s on cs args
    | [] => setLetters? s on cs []
  | c :: cs, args => (setLetter? s on c).bind fun s => setLetters? s on cs args

/-- The most parameters that a script may have. -/
def paramLimit : Nat := 100000

/-- Sets options and parameters. -/
def setParams : (fuel : Nat) → List String → Shell → Shell
  | 0, _, s => s
  | fuel + 1, args, s =>
    match args with
    | [] => s
    | "--" :: args => { s with params := args }
    | arg :: rest =>
      match arg.toList with
      | ['-'] => if rest.isEmpty then s else { s with params := rest }
      | '-' :: cs => proceed fuel true cs rest s
      | '+' :: cs => proceed fuel false cs rest s
      | _ => { s with params := args }
where
  /-- Goes on behind the letters of an argument. -/
  proceed (fuel : Nat) (on : Bool) (cs : List Char) (rest : List String) (s : Shell) : Shell :=
    match setLetters? s on cs rest with
    | some (s, rest) => setParams fuel rest s
    | none => s.fail

/-! ## Reading -/

/-- Takes a line from a text: its characters, of which each is known to be quoted or not, what is
left, and whether the line had an end. -/
def takeLine (raw : Bool) : List Char → List (Char × Bool) × List Char × Bool
  | [] => ([], [], false)
  | '\n' :: cs => ([], cs, true)
  | '\\' :: c :: cs =>
    if raw then
      let (line, rest, ended) := takeLine raw (c :: cs)
      (('\\', false) :: line, rest, ended)
    else
      let (line, rest, ended) := takeLine raw cs
      (if c = '\n' then line else (c, true) :: line, rest, ended)
  | c :: cs =>
    let (line, rest, ended) := takeLine raw cs
    ((c, false) :: line, rest, ended)
termination_by cs => cs.length
decreasing_by all_goals (simp only [List.length_cons]; omega)

/-- Whether a character of a line separates fields and is a blank. -/
def isBlankSeparator (separators : List Char) (c : Char × Bool) : Bool :=
  !c.2 && separators.contains c.1 && (c.1 = ' ' || c.1 = '\t' || c.1 = '\n')

/-- The values of as many variables as `count` says: each gets a field, and the last one all that is
left. -/
def lineFields (separators : List Char) : (count : Nat) → List (Char × Bool) → List String
  | 0, _ => []
  | 1, line =>
    let blank := isBlankSeparator separators
    let line := ((line.dropWhile blank).reverse.dropWhile blank).reverse
    let separates (c : Char × Bool) : Bool := !c.2 && separators.contains c.1
    let single := match line.getLast? with
      | some c => separates c && !line.dropLast.any separates
      | none => false
    [String.ofList ((if single then line.dropLast else line).map (·.1))]
  | count + 1, line =>
    let blank := isBlankSeparator separators
    let separates (c : Char × Bool) : Bool := !c.2 && separators.contains c.1
    let line := line.dropWhile blank
    let field := line.takeWhile fun c => !separates c
    let rest := (line.drop field.length).dropWhile blank
    let rest := match rest with
      | c :: cs => if separates c then cs.dropWhile blank else rest
      | [] => []
    String.ofList (field.map (·.1)) :: lineFields separators count rest

def readVars (args : List String) (s : Shell) : Shell :=
  let (raw, names) := match args with
    | "-r" :: names => (true, names)
    | names => (false, names)
  if !names.all fun n => isName n.toList then s.withStatus 2
  else if names.isEmpty && s.dialect == .standard then s.withStatus 2
  else
    let names := if names.isEmpty then ["REPLY"] else names
    let (line, rest, ended) := takeLine raw s.input
    let values := lineFields s.separators names.length line
    let s := (names.zip values).foldl (fun s (n, v) => s.setVar n v) (s.setInput rest)
    if s.flow = .finish then s else s.withStatus (if ended then 0 else 1)

/-! ## Directories -/

def changeDir (args : List String) (s : Shell) : Shell :=
  let target := match args.filter fun a => a != "-P" && a != "-L" && a != "--" with
    | [] => s.var? "HOME"
    | "-" :: _ => s.var? "OLDPWD"
    | dir :: _ => some dir
  match target.filter (· != "") with
  | none => s.withStatus (if args.isEmpty && target.isNone then 2 else 0)
  | some path =>
    match s.find? path, toText? path with
    | some .dir, some text =>
      let place := s.host.nominalPlace text
      let old := (s.var? "PWD").getD ""
      let s := ((s.setVar "OLDPWD" old).setVar "PWD" (pathOf place)).withStatus 0
      let s := { s with host := { s.host with cwd := place } }
      if args.head? = some "-" then s.put ((pathOf place).toList ++ ['\n']) else s
    | _, _ => (s.complain ("cd: can't cd to " ++ path)).withStatus 2

/-! ## Ends -/

def countArg? (arg : String) : Option Nat :=
  if arg != "" && arg.toList.all Char.isDigit then some (ofDigits 10 arg.toList) else none

/-- Leaves loops, or goes on with the next round of one. -/
def leaveLoops (flow : Nat → Flow) (args : List String) (s : Shell) : Shell :=
  match countArg? (args.headD "1") with
  | none | some 0 => s.fail
  | some n =>
    let s := s.withStatus 0
    if s.loops = 0 then s else { s with flow := flow (min n s.loops) }

def endWith (flow : Flow) (args : List String) (s : Shell) : Shell :=
  match args with
  | [] => { s with flow := flow }
  | arg :: _ =>
    match countArg? arg with
    | some n => { s with status := n % 256, flow := flow }
    | none => s.fail

/-- Sends a signal to the process itself or to one that is not waited for. -/
def sendSignal (args : List String) (s : Shell) : Shell :=
  let (signal, targets) := match args with
    | "-s" :: name :: rest => (name, rest)
    | arg :: rest =>
      match arg.toList with
      | '-' :: name => (String.ofList name, rest)
      | _ => ("TERM", args)
    | [] => ("TERM", [])
  if signal = "0" then s.withStatus 0
  else if targets.contains Shell.processId then
    { s.withStatus 143 with flow := .finish, atExit := none }
  else if targets.contains Shell.jobId && s.jobStatus.isSome then
    { s.withStatus 0 with
      log := s.log.filter fun e => e.time ≤ s.clock
      jobsEnd := s.clock
      jobStatus := some 143 }
  else s.withStatus 1

/-- Waits for the commands that are not waited for. -/
def waitJobs (args : List String) (s : Shell) : Shell :=
  let status := match args with
    | [] => 0
    | arg :: _ => if arg = Shell.jobId then s.jobStatus.getD 127 else 127
  { s.withStatus status with clock := max s.clock s.jobsEnd }

/-- Says what runs at the end. -/
def setTrap (args : List String) (s : Shell) : Shell :=
  let atEnd (signals : List String) := signals.contains "EXIT" || signals.contains "0"
  let s := s.withStatus 0
  match (if args.head? = some "--" then args.drop 1 else args) with
  | [] => s
  | [signal] => if atEnd [signal] then { s with atExit := none } else s
  | action :: signals =>
    if !atEnd signals then s
    else if action = "-" then { s with atExit := none }
    else { s with atExit := some action }

/-- The truth of a condition of the extended shell, where the right side of a comparison is a
pattern. -/
def extendedStatus (s : Shell) (args : List String) : Nat :=
  let fits (a b : String) := matchesPattern (pattern (b.toList.map fun c => (c, true))) a.toList
  match args with
  | [a, "=", b] | [a, "==", b] => if fits a b then 0 else 1
  | [a, "!=", b] => if fits a b then 1 else 0
  | _ => conditionStatus s args

/-- Carries out a command of the shell that runs nothing else. -/
def builtin? (s : Shell) (name : String) (args : List String) : Option Shell :=
  match name with
  | ":" | "true" => some (s.withStatus 0)
  | "false" => some (s.withStatus 1)
  | "echo" =>
    let out := if s.dialect == .extended then plainEcho args else echo args
    some ((s.put out).withStatus (s.writeStatus 0))
  | "printf" =>
    let (out, status) := printfArgs args
    some ((s.put out).withStatus (s.writeStatus status))
  | "test" => some (s.withStatus (conditionStatus s args))
  | "[" =>
    some (s.withStatus (if args.getLast? = some "]" then conditionStatus s args.dropLast else 2))
  | "[[" => some (s.withStatus (extendedStatus s args.dropLast))
  | "break" => some (leaveLoops .leave args s)
  | "continue" => some (leaveLoops .again args s)
  | "exit" => some (endWith .finish args s)
  | "return" => some (endWith .giveBack args s)
  | "export" => some (declareVars Shell.exportVar (args.filter (· != "-p")) s)
  | "readonly" => some (declareVars Shell.lockVar (args.filter (· != "-p")) s)
  | "local" => some (makeLocal args s)
  | "declare" | "typeset" =>
    some (if s.hidden.isEmpty then declareVars (fun s _ => s) args s else makeLocal args s)
  | "unset" => some (unset args s)
  | "set" =>
    if paramLimit < args.length then some s.hang
    else some (setParams (args.length + 1) args (s.withStatus 0))
  | "shift" =>
    match countArg? (args.headD "1") with
    | some n =>
      if n ≤ s.params.length then some { s.withStatus 0 with params := s.params.drop n }
      else some s.fail
    | none => some s.fail
  | "read" => some (readVars args s)
  | "cd" | "chdir" => some (changeDir args s)
  | "pwd" =>
    some ((s.put (((s.var? "PWD").getD (pathOf s.host.cwd)).toList ++ ['\n'])).withStatus 0)
  | "kill" => some (sendSignal args s)
  | "wait" => some (waitJobs args s)
  | "trap" => some (setTrap args s)
  | "umask" => some ((s.put (if args.isEmpty then "0022\n".toList else [])).withStatus 0)
  | "alias" | "unalias" | "hash" | "jobs" | "ulimit" | "times" | "shopt" | "let" =>
    some (s.withStatus 0)
  | _ => none

end Stubwright.Script
