import Stubwright.Text.Lines

/-!
# Arguments of the command

The command takes options for everything before and after the name of what is to be done, and
options of each task after its name.  An option is given once at each of the two levels; where both
have it, the inner one counts.
-/

namespace Stubwright.Command

/-- What the command is asked to do. -/
inductive Task where
  /-- Generate the stubs of an interface for a type. -/
  | implement (interface concrete : String) (write json : Bool)
  | list (path : Option String) (json : Bool)
deriving DecidableEq, Repr, Inhabited

/-- Whether the answer is to be a document. -/
def Task.json : Task → Bool
  | .implement _ _ _ json => json
  | .list _ json => json

structure Request where
  /-- The directory from which the main module is looked for. -/
  workspace : Option String
  goroot : Option String
  /-- What is to be done. -/
  task : Task
deriving DecidableEq, Repr, Inhabited

inductive Arguments where
  | request (r : Request)
  | version
  | mistake
deriving DecidableEq, Repr, Inhabited

inductive OptionKind where
  | flag
  | text
  | path
  | level
deriving DecidableEq, Repr

def logLevels : List String := ["trace", "debug", "info", "warn", "error"]

/-- Whether a value is right for an option. -/
def OptionKind.accepts : OptionKind → String → Bool
  | .flag, _ => false
  | .text, _ => true
  | .path, value => value != ""
  | .level, value => logLevels.contains value

def sharedOptions : List (String × OptionKind) :=
  [("--workspace", .path), ("--goroot", .path), ("--log-level", .level)]

def taskOptions : List (String × List (String × OptionKind)) :=
  [("implement", [("--iface", .text), ("--impl", .text), ("--write", .flag), ("--json", .flag)]),
    ("list", [("--path", .text), ("--json", .flag)])]

/-- Options as they are given, by name, with their values. -/
abbrev Given := List (String × String)

/-- Splits an argument at its first equals sign. -/
def splitValue (arg : String) : String × Option String :=
  let name := arg.toList.takeWhile (· != '=')
  match arg.toList.drop name.length with
  | _ :: value => (String.ofList name, some (String.ofList value))
  | [] => (arg, none)

def looksLikeOption (arg : String) : Bool :=
  match arg.toList with
  | '-' :: _ :: _ => true
  | _ => false

/-- Adds an option, which may not be there yet and has to have a right value. -/
def give (known : List (String × OptionKind)) (given : Given) (name : String)
    (value : Option String) : Option Given :=
  match known.lookup name, value with
  | none, _ => none
  | some .flag, none => if (given.lookup name).isSome then none else some (given ++ [(name, "")])
  | some kind, some value =>
    if (given.lookup name).isSome || !kind.accepts value then none
    else some (given ++ [(name, value)])
  | some _, none => none

/-- Reads the options of a task to the end of the arguments.  Two dashes end the options, and
nothing may follow them. -/
def readOptions (known : List (String × OptionKind)) (given : Given) :
    List String → Option Given
  | [] => some given
  | arg :: rest =>
    if arg = "--" then (if rest.isEmpty then some given else none)
    else if !looksLikeOption arg then none
    else
      let (name, value) := if arg = "-w" then ("--write", none) else splitValue arg
      match known.lookup name, value, rest with
      | none, _, _ => none
      | some .flag, value, rest =>
        match give known given name value with
        | some given => readOptions known given rest
        | none => none
      | some _, some value, rest =>
        match give known given name (some value) with
        | some given => readOptions known given rest
        | none => none
      | some _, none, value :: rest =>
        if looksLikeOption value then none
        else match give known given name (some value) with
          | some given => readOptions known given rest
          | none => none
      | some _, none, [] => none

def readTask (name : String) (given : Given) : Option Task :=
  if name = "implement" then
    match given.lookup "--iface", given.lookup "--impl" with
    | some interface, some concrete =>
      some (.implement interface concrete (given.lookup "--write").isSome
        (given.lookup "--json").isSome)
    | _, _ => none
  else if name = "list" then some (.list (given.lookup "--path") (given.lookup "--json").isSome)
  else none

/-- What the arguments from the name of a task on amount to, with the options given before. -/
def readRequest (outer : Given) (name : String) (rest : List String) : Arguments :=
  match taskOptions.lookup name with
  | none => .mistake
  | some own =>
    match readOptions (sharedOptions ++ own) [] rest with
    | none => .mistake
    | some given =>
      match readTask name given with
      | none => .mistake
      | some task =>
        let both := given ++ outer
        .request ⟨both.lookup "--workspace", both.lookup "--goroot", task⟩

/-- Whether an argument asks for the version.  The short form may have more letters behind it, which
are not looked at. -/
def asksVersion (arg : String) : Bool :=
  arg == "--version" || "-V".toList.isPrefixOf arg.toList

/-- What arguments amount to, with the options read so far. -/
def readArguments (given : Given) : List String → Arguments
  | [] => .mistake
  | arg :: rest =>
    if asksVersion arg then .version
    else if !looksLikeOption arg then readRequest given arg rest
    else
      let (name, value) := splitValue arg
      match sharedOptions.lookup name, value, rest with
      | none, _, _ => .mistake
      | some _, some value, rest =>
        match give sharedOptions given name (some value) with
        | some given => readArguments given rest
        | none => .mistake
      | some _, none, value :: rest =>
        if looksLikeOption value then .mistake
        else match give sharedOptions given name (some value) with
          | some given => readArguments given rest
          | none => .mistake
      | some _, none, [] => .mistake

def Arguments.ofList (args : List String) : Arguments :=
  readArguments [] args

end Stubwright.Command
