import Stubwright.Script.Run

/-!
# Running scripts

The outcome of a program that is started with arguments and an environment: what it writes, how it
ends and how long it takes.  Its output goes to a pipe that is read only after its end, so a program
that writes more than the pipe holds never ends.

Finding the installation asks the `go` command, and any program of that name will do; most often it
is a script.  Scripts are run here so that what is found is a function of the files and the
environment, time limit included.  Where the environment tells the root of the installation, no
program is run, and no theorem is about these modules.
-/

namespace Stubwright.Script

structure Outcome where
  status : Nat
  output : List UInt8
  /-- The time it takes, in milliseconds; nothing if it never ends. -/
  elapsed : Option Nat
deriving DecidableEq, Repr, Inhabited

/-- How deep commands may be nested in a run. -/
def depthLimit : Nat := 3000

/-- How many commands a run may take. -/
def commandLimit : Nat := 200000

/-- A shell that has run nothing yet. -/
def initial (h : Host) (environment : List (String × String)) : Shell where
  host := h
  dialect := .standard
  name := ""
  line := 0
  params := []
  vars := environment.map fun (name, value) => (name, ⟨some (ofText value), true, false⟩)
  hidden := []
  functions := []
  documents := []
  options := ⟨false, false, false, false⟩
  atExit := none
  streams := [(0, .null), (1, .pipe outputPipe), (2, .null)]
  sources := []
  nextId := outputPipe + 1
  log := []
  sent := 0
  status := 0
  substituted := none
  flow := .onward
  loops := 0
  clock := 0
  jobsEnd := 0
  jobStatus := none
  budget := commandLimit
  hung := false

/-- Runs the program at a path with arguments.  A file that may not be run, or that no program of
the system runs, cannot be started. -/
def launch? (h : Host) (environment : List (String × String)) (path : String)
    (args : List String) : Option Outcome :=
  let s := initial h environment
  match executableAt s (ofText path) with
  | .error _ => none
  | .ok e =>
    match startOf s interpreterLimit e ((path :: args).map ofText) with
    | .runs name args =>
      let final := runSystem (runCommands depthLimit) chainLimit name args s
      some ⟨final.status, toBytes (final.written outputPipe),
        if final.hung then none else some final.clock⟩
    | _ => none

end Stubwright.Script
