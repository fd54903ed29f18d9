import Stubwright.Script.Executable
import Stubwright.Script.Expand
import Stubwright.Script.Read
import Stubwright.Script.Utility

/-!
# Running commands

The effect of each command on a shell.  A command that holds others runs them by `self`, which runs
a list of commands one level deeper; `runCommands` ties the knot with a bound on the depth.  A run
that goes deeper, or that takes more commands than its budget, counts as one that never ends.

A command is *tested* if its status decides about something.  A failure of one that is not ends the
run where the options say so.
-/

namespace Stubwright.Script

abbrev Runner := (tested : Bool) → List Command → Shell → Shell

section
variable (self : Runner)

/-! ## Texts -/

/-- Runs the lines of a script one after the other. -/
def runLines (tested : Bool) (lines : List (Nat × List Command)) (s : Shell) : Shell :=
  lines.foldl (fun s (number, commands) =>
    if s.isRunning then self tested commands { s with line := number } else s) s

/-- Runs a text.  What cannot be read is an error when the run gets there. -/
def runText (tested : Bool) (text : List Char) (s : Shell) : Shell :=
  let read := readLines s.documents.length text
  let s := runLines self tested read.lines { s with documents := s.documents ++ read.documents }
  if read.broken && s.isRunning then s.fail else s

/-- Runs what is left to run at the end of a shell. -/
def finish (s : Shell) : Shell :=
  match s.atExit with
  | none => s
  | some action =>
    if s.hung then s
    else
      let after := runText self false action.toList { s with atExit := none, flow := .onward }
      if after.flow = .finish then after else after.withStatus s.status

/-- The output of commands without the ends of lines behind it. -/
def capture (body : List Command) : Expanding String := fun s =>
  let pipe := s.nextId
  let after := { s with nextId := pipe + 1 }.fork fun child =>
    let child := finish self (self false body { child.connect 1 (.pipe pipe) with jobsEnd := 0 })
    { child with clock := max child.clock child.jobsEnd }
  let text := (after.written pipe).filter (· != '\x00')
  let text := (text.reverse.dropWhile (· = '\n')).reverse
  let after := after.charge (after.log.length + text.length)
  (String.ofList text,
    { after.forget pipe with status := s.status, substituted := some after.status })

/-! ## Redirections -/

/-- Connects a stream to a file that is written to. -/
def openOutput (s : Shell) (number : Nat) (path : String) (afresh : Bool) : Option Shell :=
  if path = "/dev/null" then some (s.connect number .null)
  else if path = "/dev/stdout" || path = "/dev/fd/1" then some (s.connect number (s.stream 1))
  else if path = "/dev/stderr" || path = "/dev/fd/2" then some (s.connect number (s.stream 2))
  else (s.placeFor? path).map fun place =>
    let old := match s.host.entry? place with
      | some (.file bytes _) => bytes
      | _ => []
    let s := { s with host := s.host.write place (if afresh then [] else old) }
    s.connect number (.file place)

def cannotCreate (s : Shell) (path : String) : String :=
  let reason := match s.find? path with
    | some .dir => "Is a directory"
    | _ => "Directory nonexistent"
  "cannot create " ++ path ++ ": " ++ reason

/-- Carries out a redirection, or says why it fails. -/
def redirect (r : Redirect (List Command)) (s : Shell) : Except String Shell :=
  let opened (result : Option Shell) (message : String) : Except String Shell :=
    match result with
    | some s => .ok s
    | none => .error message
  match r with
  | .document number index =>
    let (glyphs, s) := (expandPieces (capture self) false (s.documents[index]?.getD [])).run s
    .ok (s.feed number (glyphText glyphs).toList)
  | .word number direction target =>
    let (path, s) := (expandText (capture self) target).run s
    match direction with
    | .input =>
      if path = "/dev/stdin" then .ok (s.connect number (s.stream 0))
      else match s.find? path with
        | some (.file _ bytes _) => .ok (s.feed number (ofBytes bytes))
        | some _ => .ok (s.connect number .null)
        | none => .error ("cannot open " ++ path ++ ": No such file")
    | .output => opened (openOutput s number path true) (cannotCreate s path)
    | .append => opened (openOutput s number path false) (cannotCreate s path)
    | .copy =>
      if path = "-" then .ok { s with streams := s.streams.filter fun (n, _) => n != number }
      else
        let copied := (countArg? path).bind fun source =>
          (s.streams.lookup source).map (s.connect number)
        opened copied (path ++ ": Bad file descriptor")

/-- Carries out redirections, and says whether all were possible. -/
def redirectAll : List (Redirect (List Command)) → Shell → Bool × Shell
  | [], s => (true, s)
  | r :: rs, s =>
    match redirect self r s with
    | .ok s => if s.isRunning then redirectAll rs s else (true, s)
    | .error message => (false, s.complain message)

/-! ## Programs -/

/-- Runs a shell in a process of its own. -/
def runShell (dialect : Dialect) (args : List String) (s : Shell) : Shell :=
  let name := args.headD "sh"
  let s := (s.setVar "IFS" " \t\n").setVar "OPTIND" "1"
  let s := (s.setVar "PWD" (pathOf s.host.cwd)).exportVar "PWD"
  let (s, task) := shellTask name (args.length + 1) false false (args.drop 1)
    { s with dialect := dialect }
  let run (text : List Char) (name : String) (params : List String) (s : Shell) : Shell :=
    finish self (runText self false text { s with name := name, params := params })
  match task with
  | .text text name params => run text name params s
  | .input name params => run s.input name params (s.setInput [])
  | .script path params =>
    match s.readFile? path with
    | some text => run text path params s
    | none => s.withStatus 2
  | .bad => s.withStatus 2

/-- Sets the variables that the first arguments assign, and gives the others. -/
def environmentArgs : List String → Shell → List String × Shell
  | [], s => ([], s)
  | "-i" :: args, s => environmentArgs args { s with vars := [] }
  | "-u" :: name :: args, s => environmentArgs args (s.restore name none)
  | arg :: args, s =>
    match splitAssignment arg with
    | (name, some value) =>
      if name = "" then (arg :: args, s)
      else environmentArgs args ((s.setVar name value).exportVar name)
    | (_, none) => (arg :: args, s)

/-- The arguments of `env`, the first of which may hold others behind an option. -/
def splitOption (args : List String) : List String :=
  match args with
  | [] => []
  | arg :: rest =>
    match arg.toList with
    | '-' :: 'S' :: text => (blankWords text).map String.ofList ++ rest
    | _ => args

/-- The programs that read all of their input if they are given no files. -/
def readers : List String :=
  ["cat", "head", "tail", "tr", "cut", "wc", "rev", "tac", "sort", "uniq"]

/-- Runs a program of the system in a process of its own. -/
def runSystem : (fuel : Nat) → String → List String → Shell → Shell
  | 0, _, _, s => s.hang
  | fuel + 1, name, args, s =>
    let rest := args.drop 1
    match name with
    | "sh" | "dash" => runShell self .standard args s
    | "bash" => runShell self .extended args s
    | "env" =>
      match environmentArgs (splitOption rest) s with
      | ([], s) =>
        s.put (unlines (s.vars.map fun (n, v) => (n ++ "=" ++ v.value.getD "").toList))
      | (command :: rest, s) =>
        match search s command with
        | .error status => s.withStatus status
        | .ok e =>
          match startFromShell s e (command :: rest) with
          | .runs name args => runSystem fuel name args s
          | .fails status => s.withStatus status
          | .shapeless => s.withStatus 126
    | "printenv" =>
      match rest.head?.bind s.var? with
      | some value => s.put (value.toList ++ ['\n'])
      | none => s.withStatus 1
    | "tee" =>
      let text := s.input
      let s := (s.setInput []).put text
      (rest.filter (· != "-a")).foldl (fun s file =>
        match openOutput s 9 file (!rest.contains "-a") with
        | some opened => { opened.write 9 text with streams := s.streams }
        | none => s.withStatus 1) s
    | "touch" =>
      rest.foldl (fun s file =>
        match openOutput s 9 file false with
        | some opened => { opened with streams := s.streams }
        | none => if (s.find? file).isSome then s else s.withStatus 1) s
    | "mkdir" =>
      let above := rest.contains "-p"
      (rest.filter (· != "-p")).foldl (fun s dir =>
        match toText? dir with
        | none => s.withStatus 1
        | some path =>
          let place := s.host.nominalPlace path
          if (s.find? dir).isSome then if above then s else s.withStatus 1
          else if above || (s.find? (pathOf place.dropLast)).isSome then
            { s with host := s.host.put place (.dir Host.programMode) }
          else s.withStatus 1) s
    | _ =>
      match utility? s name rest with
      | some effect =>
        let s := if readers.contains name then s.setInput [] else s
        let wrote := !effect.out.isEmpty
        let s := (s.put effect.out).withStatus
          (if wrote then s.writeStatus effect.status else effect.status)
        { s with clock := s.clock + effect.time }
      | none => s.withStatus 127

/-- The most programs that may start each other in one process. -/
def chainLimit : Nat := 100

/-- Runs a command that is not the shell's own in a process of its own. -/
def external (name : String) (args : List String) (s : Shell) : Shell :=
  let failed (status : Nat) : Shell :=
    let reason := if status = 126 then ": Permission denied"
      else if s.dialect == .extended then ": command not found" else ": not found"
    (s.complain (name ++ reason)).withStatus status
  match search s name with
  | .error status => failed status
  | .ok e =>
    match startFromShell s e (name :: args) with
    | .runs program args =>
      s.fork fun child => runSystem self chainLimit program args (asProcess child)
    | .fails status => failed status
    | .shapeless => failed 126

/-! ## Simple commands -/

def call (tested : Bool) (body : Command) (args : List String) (s : Shell) : Shell :=
  let after := self tested [body] { s with params := args, hidden := [] :: s.hidden, loops := 0 }
  let left : Shell := { after with params := s.params, hidden := s.hidden, loops := s.loops }
  let shown : Shell := (after.hidden.headD []).foldl (fun s (name, old) => s.restore name old) left
  if shown.flow = .giveBack then { shown with flow := .onward } else shown

/-- Runs the text of a file in this shell. -/
def readIn (args : List String) (s : Shell) : Shell :=
  match args with
  | [] => s.fail
  | file :: _ =>
    let paths := if file.toList.contains '/' then [file]
      else (searchDirs s).map fun dir => if dir = "" then file else dir ++ "/" ++ file
    match paths.findSome? s.readFile? with
    | none => s.fail
    | some text =>
      let after := runText self false text (s.withStatus 0)
      if after.flow = .giveBack then { after with flow := .onward } else after

/-- Says what names stand for. -/
def describe (full : Bool) (names : List String) (s : Shell) : Shell :=
  names.foldl (fun s name =>
    match meaning? s name with
    | some (brief, long) => s.put ((if full then long else brief).toList ++ ['\n'])
    | none => (if full then s.put (name.toList ++ ": not found\n".toList) else s).withStatus 127)
    (s.withStatus 0)

/-- Runs a command of the shell itself. -/
def runBuiltin (tested : Bool) (name : String) (args : List String) (s : Shell) : Shell :=
  match name with
  | "eval" => runText self tested (String.intercalate " " args).toList (s.withStatus 0)
  | "." | "source" => readIn self args s
  | "exec" =>
    match args with
    | [] => s.withStatus 0
    | command :: args => { external self command args s with flow := .finish, atExit := none }
  | "type" => describe true args s
  | "command" =>
    match args with
    | "-v" :: names => describe false names s
    | "-V" :: names => describe true names s
    | _ =>
      match if args.head? = some "-p" then args.drop 1 else args with
      | [] => s.withStatus 0
      | inner :: rest =>
        if inner = "eval" then
          runText self tested (String.intercalate " " rest).toList (s.withStatus 0)
        else if inner = "." && (rest.head?.bind s.readFile?).isSome then readIn self rest s
        else if inner = "." then s.withStatus 2
        else if isBuiltin s inner then (builtin? s inner rest).getD (s.withStatus 0)
        else external self inner rest s
  | _ => (builtin? s name args).getD (s.withStatus 127)

def assignAll (exported : Bool) : List (String × Word) → Shell → Shell
  | [], s => s
  | (name, word) :: rest, s =>
    let (value, s) := (expandValue (capture self) word).run s
    if !s.isRunning then s
    else
      let s := (s.setVar name value).charge value.utf8ByteSize
      assignAll exported rest (if exported then s.exportVar name else s)

/-- The commands whose arguments may be assignments, which are not split. -/
def declaring : List String := ["export", "readonly", "local", "declare", "typeset"]

def commandFields (words : List Word) : Expanding (List String) :=
  match words with
  | [] => return []
  | first :: rest =>
    if (literal? first).any declaring.contains then do
      let fields ← rest.mapM fun w =>
        match Reader.assignment? w with
        | some (name, value) => do return [name ++ "=" ++ (← expandValue (capture self) value)]
        | none => expandFields (capture self) w
      return (literal? first).toList ++ fields.flatten
    else expandAll (capture self) words

/-- Runs a command whose words are expanded. -/
def runFields (tested : Bool) (assigned : List (String × Word))
    (redirects : List (Redirect (List Command))) (name : String) (args : List String) (s : Shell) :
    Shell :=
  let special := specialBuiltins.contains name
  let back (after : Shell) : Shell :=
    if redirects.isEmpty then after
    else { after.dropSources s.nextId with streams := s.streams }
  match redirectAll self redirects s with
  | (false, after) =>
    let after := back after
    if special then after.fail else after.withStatus 2
  | (true, connected) =>
    if !connected.isRunning then connected
    else if special then
      let after := assignAll self false assigned connected
      let after := if after.isRunning then runBuiltin self tested name args after else after
      if name = "exec" then after else back after
    else
      let old := assigned.map fun (n, _) => (n, s.vars.lookup n)
      let ready := assignAll self true assigned connected
      let after := if !ready.isRunning then ready
        else match ready.functions.lookup name with
          | some body => call self tested body args ready
          | none =>
            if isBuiltin ready name then runBuiltin self tested name args ready
            else external self name args ready
      old.foldl (fun s (n, v) => s.restore n v) (back after)

def runSimple (tested : Bool) (assigned : List (String × Word)) (words : List Word)
    (redirects : List (Redirect (List Command))) (s : Shell) : Shell :=
  let (fields, expanded) := (commandFields self words).run { s with substituted := none }
  let size := fields.foldl (fun n f => n + f.utf8ByteSize + 1) 0
  let expanded := expanded.charge size
  if !expanded.isRunning then expanded
  else match fields with
    | name :: args => runFields self tested assigned redirects name args expanded
    | [] =>
      match redirectAll self redirects expanded with
      | (false, after) => { after with status := 2, streams := s.streams }
      | (true, connected) =>
        let after := assignAll self false assigned connected
        let after := { after.dropSources s.nextId with streams := s.streams }
        if after.isRunning then after.withStatus (after.substituted.getD 0) else after

/-! ## Compound commands -/

/-- Ends the run after a failure, where the options say so. -/
def settle (tested : Bool) (s : Shell) : Shell :=
  if s.options.failing && !tested && s.status != 0 && s.isRunning then { s with flow := .finish }
  else s

def afterPart (s : Shell) : Bool × Shell :=
  match s.flow with
  | .onward => (!s.hung, s)
  | .leave n => (false, { s with flow := if n ≤ 1 then .onward else .leave (n - 1) })
  | .again n =>
    if n ≤ 1 then (!s.hung, { s with flow := .onward })
    else (false, { s with flow := .again (n - 1) })
  | _ => (false, s)

/-- Runs the rounds of a loop; `last` is the status of the last round. -/
def runLoop (tested untilTrue : Bool) (condition body : List Command) :
    (rounds : Nat) → (last : Nat) → Shell → Shell
  | 0, _, s => s.hang
  | rounds + 1, last, s =>
    let asked := self true condition s
    if asked.flow = .onward then
      if asked.hung then asked
      else if (asked.status == 0) == untilTrue then asked.withStatus last
      else
        match afterPart (self tested body asked) with
        | (true, s) => runLoop tested untilTrue condition body rounds s.status s
        | (false, s) => s
    else
      match afterPart asked with
      | (true, s) => runLoop tested untilTrue condition body rounds last s
      | (false, s) => s

/-- Runs the rounds of a loop over fields. -/
def runEach (tested : Bool) (name : String) (body : List Command) : List String → Shell → Shell
  | [], s => s
  | field :: fields, s =>
    let s := s.setVar name field
    if !s.isRunning then s
    else match afterPart (self tested body s) with
      | (true, s) => runEach tested name body fields s
      | (false, s) => s

def anyMatches (text : String) : List Word → Expanding Bool
  | [] => return false
  | w :: ws => do
    let parts ← expandPattern (capture self) w
    if matchesPattern parts text.toList then return true else anyMatches text ws

/-- Runs the first arm of a choice that has a pattern for a text. -/
def runChoice (tested : Bool) (text : String) : List (List Word × List Command) → Shell → Shell
  | [], s => s.withStatus 0
  | (patterns, body) :: arms, s =>
    let (fits, s) := (anyMatches self text patterns).run s
    if !s.isRunning then s
    else if fits then if body.isEmpty then s.withStatus 0 else self tested body s
    else runChoice tested text arms s

/-- Runs the stages of a pipeline, which all start at the same time. -/
def runStages (tested : Bool) (start : Nat) : List Command → Shell → Shell
  | [], s => s
  | [stage], s => s.fork fun child => finish self (self tested [stage] child)
  | stage :: stages, s =>
    let pipe := s.nextId
    let after := { s with nextId := pipe + 1 }.fork fun child =>
      finish self (self tested [stage] (child.connect 1 (.pipe pipe)))
    let text := after.written pipe
    let after := after.charge (after.log.length + text.length)
    let ready := { (after.forget pipe).feed 0 text with clock := start }
    let last := if after.hung then after else runStages tested start stages ready
    let status := if s.options.piped && last.status = 0 then after.status else last.status
    { last.dropSources s.nextId with
      clock := max last.clock after.clock
      streams := s.streams
      status := status }

/-- Runs a command that is not waited for, with a half of the budget. -/
def runBackground (body : Command) (s : Shell) : Shell :=
  let share := s.budget / 2
  let after := { s with budget := share }.fork fun child =>
    finish self (self false [body] (child.connect 0 .null))
  { after with
    clock := s.clock
    jobsEnd := if after.hung then endOfTime else max after.jobsEnd after.clock
    jobStatus := some after.status
    budget := s.budget - (share - after.budget)
    hung := s.hung
    status := 0 }

def runCommand (tested : Bool) (c : Command) (s : Shell) : Shell :=
  match c with
  | .simple assigned words redirects =>
    settle tested (runSimple self tested assigned words redirects s)
  | .redirected body redirects =>
    match redirectAll self redirects s with
    | (false, after) => { after with status := 2, streams := s.streams }
    | (true, connected) =>
      if connected.isRunning then
        { (self tested [body] connected).dropSources s.nextId with streams := s.streams }
      else connected
  | .group body => self tested body s
  | .subshell body => settle tested (s.fork fun child => finish self (self tested body child))
  | .branch condition body otherwise =>
    let asked := self true condition s
    if !asked.isRunning then asked
    else if asked.status = 0 then self tested body asked
    else if otherwise.isEmpty then asked.withStatus 0
    else self tested otherwise asked
  | .loop untilTrue condition body =>
    let after := runLoop self tested untilTrue condition body (s.budget + 1) 0
      { s with loops := s.loops + 1 }
    { after with loops := s.loops }
  | .each name words body =>
    let (fields, s) := match words with
      | none => (s.params, s)
      | some words => (expandAll (capture self) words).run s
    if !s.isRunning then s
    else
      let after := runEach self tested name body fields
        { s.withStatus 0 with loops := s.loops + 1 }
      { after with loops := s.loops }
  | .choose subject arms =>
    let (text, s) := (expandText (capture self) subject).run s
    if s.isRunning then runChoice self tested text arms s else s
  | .define name body =>
    { s.withStatus 0 with functions := (name, body) :: s.functions.filter fun (n, _) => n != name }
  | .pipeline stages => settle tested (runStages self tested s.clock stages s)
  | .negated body =>
    let after := self true [body] s
    if after.isRunning then after.withStatus (if after.status = 0 then 1 else 0) else after
  | .andThen first second =>
    let after := self true [first] s
    if after.isRunning && after.status = 0 then self tested [second] after else after
  | .orElse first second =>
    let after := self true [first] s
    if after.isRunning && after.status != 0 then self tested [second] after else after
  | .background body => runBackground self body s

end

/-- Runs commands one after the other, nested at most `depth` deep. -/
def runCommands : (depth : Nat) → Runner
  | 0, _, _, s => s.hang
  | depth + 1, tested, commands, s =>
    commands.foldl (fun s c =>
      if !s.isRunning then s
      else if s.budget = 0 then s.hang
      else runCommand (runCommands depth) tested c { s with budget := s.budget - 1 }) s

end Stubwright.Script
