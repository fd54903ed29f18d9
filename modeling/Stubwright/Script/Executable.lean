import Stubwright.Script.Builtin

/-!
# Starting programs

Where a program is found, and what starts when it is run: a program of the system at once, a script
by the interpreter that its first line names.  A script that names none cannot be started, but a
shell reads it itself.
-/

namespace Stubwright.Script

/-- Something that can be run. -/
inductive Executable where
  | file (path : String) (bytes : List UInt8)
  | system (name path : String)

def Executable.path : Executable → String
  | .file path _ => path
  | .system _ path => path

/-- What can be run at a path, or the status of the failure. -/
def executableAt (s : Shell) (path : String) : Except Nat Executable :=
  match s.find? path with
  | none => .error 127
  | some (.program name) => .ok (.system name path)
  | some (.file _ bytes mode) => if mode &&& 0o111 != 0 then .ok (.file path bytes) else .error 126
  | some _ => .error 126

def searchDirs (s : Shell) : List String :=
  match s.var? "PATH" with
  | none => ["/usr/local/sbin", "/usr/local/bin", "/usr/sbin", "/usr/bin", "/sbin", "/bin"]
  | some path => (Text.splitOn ':' path.toList).map String.ofList

/-- What can be run under a name.  Of the directories of the search path the first one counts that
has a file of the name that may be run. -/
def search (s : Shell) (name : String) : Except Nat Executable :=
  if name = "" then .error 127
  else if name.toList.contains '/' then executableAt s name
  else
    let found := (searchDirs s).findSome? fun dir =>
      let path := if dir = "" then name else dir ++ "/" ++ name
      (executableAt s path).toOption
    match found with
    | some e => .ok e
    | none => .error 127

/-- The most bytes of the first line of a script that count. -/
def firstLineLimit : Nat := 255

/-- The interpreter that the first line of a script names, and the argument for it. -/
def interpreter? (bytes : List UInt8) : Option (String × Option String) :=
  let isBlank (c : Char) : Bool := c = ' ' || c = '\t'
  match ofBytes (bytes.take firstLineLimit) with
  | '#' :: '!' :: text =>
    let line := (text.takeWhile (· != '\n')).dropWhile isBlank
    let name := line.takeWhile fun c => !isBlank c
    let rest := (line.drop name.length).dropWhile isBlank
    let arg := (rest.reverse.dropWhile isBlank).reverse
    if name.isEmpty then none
    else some (String.ofList name, if arg.isEmpty then none else some (String.ofList arg))
  | _ => none

/-- What happens when something is run. -/
inductive Start where
  | runs (name : String) (args : List String)
  /-- Nothing says what could run it. -/
  | shapeless
  | fails (status : Nat)

/-- The most scripts that may be the interpreters of each other. -/
def interpreterLimit : Nat := 5

/-- What happens when something is run with arguments, of which the first is its name. -/
def startOf (s : Shell) : (fuel : Nat) → Executable → List String → Start
  | 0, _, _ => .fails 126
  | _, .system name _, args => .runs name args
  | fuel + 1, .file path bytes, args =>
    match interpreter? bytes with
    | none => .shapeless
    | some (name, arg) =>
      match executableAt s name with
      | .error status => .fails status
      | .ok e => startOf s fuel e (name :: arg.toList ++ path :: args.drop 1)

/-- What happens when a shell runs something with arguments, of which the first is its name. -/
def startFromShell (s : Shell) (e : Executable) (args : List String) : Start :=
  match startOf s interpreterLimit e args with
  | .shapeless => .runs "sh" ("/bin/sh" :: e.path :: args.drop 1)
  | start => start

/-- The words that a shell reads as parts of commands. -/
def keywords : List String :=
  ["!", "case", "do", "done", "elif", "else", "esac", "fi", "for", "if", "in", "then", "until",
    "while", "\x7b", "\x7d"]

/-- What a name stands for in a shell, in brief and in full. -/
def meaning? (s : Shell) (name : String) : Option (String × String) :=
  if keywords.contains name then some (name, name ++ " is a shell keyword")
  else if specialBuiltins.contains name then some (name, name ++ " is a special shell builtin")
  else if (s.functions.lookup name).isSome then some (name, name ++ " is a shell function")
  else if isBuiltin s name then some (name, name ++ " is a shell builtin")
  else match search s name with
    | .ok e => some (e.path, name ++ " is " ++ e.path)
    | .error _ => none

/-- The shell of a new process, which knows nothing of the old one but the variables that commands
see. -/
def asProcess (s : Shell) : Shell :=
  { s with
    vars := s.vars.filterMap fun (name, v) =>
      if v.exported && v.value.isSome then some (name, { v with locked := false }) else none
    hidden := []
    functions := []
    options := ⟨false, false, false, false⟩
    atExit := none
    params := []
    loops := 0
    status := 0
    substituted := none
    jobStatus := none
    flow := .onward }

/-- What the arguments of a shell ask for. -/
inductive Task where
  | text (text : List Char) (name : String) (params : List String)
  | script (path : String) (params : List String)
  /-- To run what is read. -/
  | input (name : String) (params : List String)
  /-- Something that does not exist. -/
  | bad

/-- Reads the arguments of a shell behind its name. -/
def shellTask (name : String) : (fuel : Nat) → (isText isInput : Bool) → List String → Shell →
    Shell × Task
  | 0, _, _, _, s => (s, .bad)
  | fuel + 1, isText, isInput, args, s =>
    let settled (args : List String) : Shell × Task :=
      if isText then
        match args with
        | [] => (s, .bad)
        | text :: rest => (s, .text text.toList (rest.headD name) (rest.drop 1))
      else if isInput then (s, .input name args)
      else match args with
        | [] => (s, .input name [])
        | path :: rest => (s, .script path rest)
    match args with
    | [] => settled []
    | "--" :: rest => settled rest
    | "-" :: rest => settled rest
    | arg :: rest =>
      match arg.toList with
      | '-' :: '-' :: _ =>
        if s.dialect == .extended then shellTask name fuel isText isInput rest s else (s, .bad)
      | '-' :: cs =>
        let letters := cs.filter fun c => c != 'c' && c != 's' && c != 'l' && c != 'i'
        match setLetters? s true letters rest with
        | some (s, rest) =>
          shellTask name fuel (isText || cs.contains 'c') (isInput || cs.contains 's') rest s
        | none => (s, .bad)
      | '+' :: cs =>
        match setLetters? s false cs rest with
        | some (s, rest) => shellTask name fuel isText isInput rest s
        | none => (s, .bad)
      | _ => settled args

end Stubwright.Script
