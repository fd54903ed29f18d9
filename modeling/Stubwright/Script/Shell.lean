import Stubwright.Host
import Stubwright.Script.Format
import Stubwright.Script.Syntax

/-!
# The state of a shell

What a running shell knows: its variables and functions, its streams, the files it sees, the time
that has passed, and what was written so far.  Everything that is written goes to a numbered pipe,
together with the time of writing, so that the output of commands that run side by side can be put
in order afterwards.

Time passes only where a command waits.  Every command costs a unit of a budget, and a run that has
used up its budget counts as one that never ends.
-/

namespace Stubwright.Script

/-! ## Bytes as texts -/

/-- The text that has a character for each byte of the given one. -/
def ofText (text : String) : String :=
  String.ofList (text.toUTF8.toList.map fun b => Char.ofNat b.toNat)

def toBytes (text : List Char) : List UInt8 :=
  text.map fun c => UInt8.ofNat c.toNat

/-- The characters that stand for bytes. -/
def ofBytes (bytes : List UInt8) : List Char :=
  bytes.map fun b => Char.ofNat b.toNat

/-- The text whose bytes are given as characters. -/
def toText? (text : String) : Option String :=
  Host.decode? (toBytes text.toList)

def pathOf (place : Host.Place) : String :=
  "/" ++ String.intercalate "/" (place.map ofText)

/-! ## The state -/

structure Variable where
  value : Option String
  /-- Whether commands see the variable. -/
  exported : Bool
  /-- Whether the variable cannot be changed. -/
  locked : Bool
deriving Inhabited

inductive Stream where
  | pipe (id : Nat)
  | source (id : Nat)
  | file (place : Host.Place)
  /-- Nothing: what is written vanishes, and there is nothing to read. -/
  | null
deriving DecidableEq, Inhabited

/-- How a run goes on after a command. -/
inductive Flow where
  /-- With the next command. -/
  | onward
  | leave (loops : Nat)
  /-- With the next round of the loop that lies behind a number of loops. -/
  | again (loops : Nat)
  /-- Behind the function. -/
  | giveBack
  /-- Not at all. -/
  | finish
deriving DecidableEq, Inhabited

structure Options where
  /-- A failure ends the run. -/
  failing : Bool
  /-- A variable that is not set is an error. -/
  strict : Bool
  /-- Patterns are not replaced by the names of files. -/
  noPatterns : Bool
  /-- A pipeline fails if one of its commands does. -/
  piped : Bool
deriving Inhabited

inductive Dialect where
  | standard
  | extended
deriving DecidableEq, Inhabited

structure Event where
  time : Nat
  pipe : Nat
  text : List Char

def outputPipe : Nat := 1

/-- How many bytes a pipe holds. -/
def pipeCapacity : Nat := 65536

structure Shell where
  /-- The files. -/
  host : Host
  dialect : Dialect
  name : String
  line : Nat
  params : List String
  vars : List (String × Variable)
  /-- The variables that each running function hides. -/
  hidden : List (List (String × Option Variable))
  functions : List (String × Command)
  documents : List Word
  options : Options
  /-- The command that runs at the end. -/
  atExit : Option String
  streams : List (Nat × Stream)
  /-- What is left to read of each text. -/
  sources : List (Nat × List Char)
  /-- The number of the next pipe or text. -/
  nextId : Nat
  /-- What was written, last first. -/
  log : List Event
  /-- How many bytes were written to the output of the program. -/
  sent : Nat
  status : Nat
  /-- The status of the last command whose output was asked for in this command. -/
  substituted : Option Nat
  flow : Flow
  /-- How many loops the run stands in. -/
  loops : Nat
  /-- The time in milliseconds. -/
  clock : Nat
  /-- When the commands that are not waited for have ended. -/
  jobsEnd : Nat
  /-- The status of the last command that is not waited for, if there is one. -/
  jobStatus : Option Nat
  /-- How many more commands may run. -/
  budget : Nat
  /-- Whether the run never ends. -/
  hung : Bool

namespace Shell

/-- Whether the next command runs. -/
def isRunning (s : Shell) : Bool :=
  s.flow = .onward && !s.hung

def withStatus (s : Shell) (status : Nat) : Shell :=
  { s with status := status }

/-- The shell after an error that ends the run. -/
def fail (s : Shell) : Shell :=
  { s with status := 2, flow := .finish }

/-- The shell of a run that never ends. -/
def hang (s : Shell) : Shell :=
  { s with hung := true }

/-- The number of characters that cost as much as a command. -/
def charsPerUnit : Nat := 32

/-- The shell after a work on a number of characters. -/
def charge (s : Shell) (size : Nat) : Shell :=
  { s with budget := s.budget - size / charsPerUnit }

/-- The shell without the texts that were made after a number was given out. -/
def dropSources (s : Shell) (id : Nat) : Shell :=
  { s with sources := s.sources.filter fun (n, _) => n < id }

/-! ## Variables -/

def setIn (name : String) (v : Variable) : List (String × Variable) → List (String × Variable)
  | [] => [(name, v)]
  | (n, w) :: rest => if n = name then (name, v) :: rest else (n, w) :: setIn name v rest

/-- Puts back a variable, or removes it. -/
def restore (s : Shell) (name : String) (old : Option Variable) : Shell :=
  match old with
  | some v => { s with vars := setIn name v s.vars }
  | none => { s with vars := s.vars.filter fun (n, _) => n != name }

/-- The most characters that a value may have. -/
def valueLimit : Nat := 1048576

/-- Sets a variable; one that is locked ends the run. -/
def setVar (s : Shell) (name value : String) : Shell :=
  let old := (s.vars.lookup name).getD ⟨none, false, false⟩
  if old.locked then s.fail
  else if valueLimit < value.utf8ByteSize then s.hang
  else { s with vars := setIn name { old with value := some value } s.vars }

/-- Makes commands see a variable. -/
def exportVar (s : Shell) (name : String) : Shell :=
  let old := (s.vars.lookup name).getD ⟨none, false, false⟩
  { s with vars := setIn name { old with exported := true } s.vars }

def lockVar (s : Shell) (name : String) : Shell :=
  let old := (s.vars.lookup name).getD ⟨none, false, false⟩
  { s with vars := setIn name { old with locked := true } s.vars }

def var? (s : Shell) (name : String) : Option String :=
  (s.vars.lookup name).bind (·.value)

/-- The number that stands for the process. -/
def processId : String := "4242"

/-- The number that stands for the last process that is not waited for. -/
def jobId : String := "4243"

/-- The value of a parameter that is one text. -/
def param? (s : Shell) (name : String) : Option String :=
  if name = "#" then some (toString s.params.length)
  else if name = "?" then some (toString s.status)
  else if name = "$" then some processId
  else if name = "!" then s.jobStatus.map fun _ => jobId
  else if name = "-" then some ((if s.options.failing then "e" else "")
    ++ (if s.options.noPatterns then "f" else "") ++ (if s.options.strict then "u" else ""))
  else if name = "0" then some s.name
  else if name != "" && name.toList.all Char.isDigit then s.params[ofDigits 10 name.toList - 1]?
  else s.var? name

/-- The characters that divide fields. -/
def separators (s : Shell) : List Char :=
  ((s.var? "IFS").getD " \t\n").toList

/-! ## Files -/

def systemDirs : List Host.Place :=
  [[], ["bin"], ["usr"], ["usr", "bin"], ["usr", "lib"], ["lib"], ["sbin"], ["usr", "sbin"],
    ["etc"], ["tmp"], ["var"], ["dev"], ["proc"], ["root"], ["home"], ["opt"]]

def systemPrograms : List String :=
  ["sh", "dash", "bash", "cat", "echo", "printf", "sleep", "true", "false", "test", "[", "dirname",
    "basename", "pwd", "env", "printenv", "head", "tail", "tr", "cut", "wc", "seq", "rev", "tac",
    "sort", "uniq", "ls", "uname", "whoami", "id", "tee", "yes", "readlink", "realpath", "mkdir",
    "touch"]

def systemProgram? (place : Host.Place) : Option String :=
  match place with
  | ["bin", name] => systemPrograms.find? (· == name)
  | ["usr", "bin", name] => systemPrograms.find? (· == name)
  | _ => none

/-- What a path leads to. -/
inductive Found where
  /-- A directory. -/
  | dir
  | file (place : Host.Place) (bytes : List UInt8) (mode : Nat)
  | program (name : String)
  /-- The device that holds nothing. -/
  | null

/-- What a path leads to, if something is there. -/
def find? (s : Shell) (path : String) : Option Found :=
  match toText? path with
  | none => none
  | some path =>
    match s.host.locate path with
    | .ok place =>
      match s.host.entry? place with
      | some (.file bytes mode) => some (.file place bytes mode)
      | some (.dir _) => some .dir
      | none => none
    | .error _ =>
      let place := s.host.nominalPlace path
      if path = "" then none
      else if place = ["dev", "null"] then some .null
      else match systemProgram? place with
        | some name => if path.toList.getLast? = some '/' then none else some (.program name)
        | none => if systemDirs.contains place then some .dir else none

def readFile? (s : Shell) (path : String) : Option (List Char) :=
  match s.find? path with
  | some (.file _ bytes _) => some (ofBytes bytes)
  | some .null => some []
  | _ => none

/-- The names in a directory, in order. -/
def names (s : Shell) (path : String) : List String :=
  match (toText? path).map s.host.readDir with
  | some (.ok entries) => (entries.map fun (name, _) => ofText name).mergeSort (· ≤ ·)
  | _ => []

/-- The place of a file that is to be written, if its directory is there. -/
def placeFor? (s : Shell) (path : String) : Option Host.Place :=
  match toText? path with
  | none => none
  | some path =>
    match s.host.locate path with
    | .ok place =>
      match s.host.entry? place with
      | some (.file ..) => some place
      | _ => none
    | .error .notFound =>
      let place := s.host.nominalPlace path
      match s.host.locate ((Host.Path.parent? path).getD "" ++ "/.") with
      | .ok _ => some place
      | .error _ =>
        if systemDirs.contains place.dropLast || !path.toList.contains '/' then some place else none
    | .error _ => none

/-! ## Streams -/

def stream (s : Shell) (number : Nat) : Stream :=
  (s.streams.lookup number).getD .null

def connect (s : Shell) (number : Nat) (stream : Stream) : Shell :=
  { s with streams := (number, stream) :: s.streams.filter fun (n, _) => n != number }

/-- Writes a text to a stream.  What goes to the output of the program is read only after its end,
so the program waits forever when the pipe is full. -/
def write (s : Shell) (number : Nat) (text : List Char) : Shell :=
  match s.stream number with
  | .pipe id =>
    let sent := if id = outputPipe then s.sent + text.length else s.sent
    { s with
      log := ⟨s.clock, id, text⟩ :: s.log
      sent := sent
      hung := s.hung || pipeCapacity < sent }
  | .file place =>
    let old := match s.host.entry? place with
      | some (.file bytes _) => bytes
      | _ => []
    { s.charge old.length with host := s.host.write place (old ++ toBytes text) }
  | _ => s

/-- The status of a command that writes: a failure if its output is closed. -/
def writeStatus (s : Shell) (status : Nat) : Nat :=
  if (s.streams.lookup 1).isSome then status else max status 1

def put (s : Shell) (text : List Char) : Shell :=
  if text.isEmpty then s else s.write 1 text

def complain (s : Shell) (message : String) : Shell :=
  let mark := if s.dialect == .extended then ": line " else ": "
  s.write 2 (s.name ++ mark ++ toString s.line ++ ": " ++ message ++ "\n").toList

/-- What is left to read of the input. -/
def input (s : Shell) : List Char :=
  match s.stream 0 with
  | .source id => (s.sources.lookup id).getD []
  | _ => []

/-- Sets what is left to read of the input. -/
def setInput (s : Shell) (text : List Char) : Shell :=
  match s.stream 0 with
  | .source id =>
    { s with sources := (id, text) :: s.sources.filter fun (n, _) => n != id }
  | _ => s

/-- Connects a stream to a text that can be read. -/
def feed (s : Shell) (number : Nat) (text : List Char) : Shell :=
  { s with sources := (s.nextId, text) :: s.sources, nextId := s.nextId + 1 }.connect number
    (.source s.nextId)

/-- What was written to a pipe, in the order of time. -/
def written (s : Shell) (pipe : Nat) : List Char :=
  let events := (s.log.filter fun e => e.pipe = pipe).reverse
  (events.mergeSort fun a b => a.time ≤ b.time).flatMap (·.text)

def forget (s : Shell) (pipe : Nat) : Shell :=
  { s with log := s.log.filter fun e => e.pipe != pipe }

/-! ## Processes -/

/-- Runs in a process of its own, which shares the files, the time and what is written. -/
def fork (s : Shell) (run : Shell → Shell) : Shell :=
  let child := run { s with atExit := none }
  { s with
    host := { child.host with cwd := s.host.cwd }
    documents := child.documents
    sources := (child.dropSources s.nextId).sources
    nextId := child.nextId
    log := child.log
    sent := child.sent
    clock := child.clock
    jobsEnd := max s.jobsEnd child.jobsEnd
    budget := child.budget
    hung := child.hung
    status := child.status }

end Shell

end Stubwright.Script
