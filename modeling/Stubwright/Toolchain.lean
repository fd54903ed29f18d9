import Stubwright.Script
import Stubwright.Text.Blank
import Stubwright.Workspace

/-!
# Finding the installation

Where the standard library and the module cache are, as far as the environment tells.  The root of
the installation is a variable, or else what the `go` command answers when it is found and answers
in time.  Finding nothing is no error.  `Script.launch?` says what a command answers and when; it is
used in `askCommand?` only.
-/

namespace Stubwright

/-- The variables of the environment that count. -/
structure Environment where
  /-- The root of the installation. -/
  goroot : Option String
  gomodcache : Option String
  /-- The roots of workspaces, divided by colons. -/
  gopath : Option String
  home : Option String
  /-- The directories that programs are looked for in, divided by colons. -/
  path : Option String
deriving DecidableEq, Repr, Inhabited

namespace Toolchain

/-- How long the `go` command may take by default, in milliseconds. -/
def standardTimeout : Nat := 5000

def nonBlank (value : Option String) : Option String :=
  value.filter fun v => !(Text.trim v.toList).isEmpty

/-- The directories of a list that is divided by colons. -/
def splitPaths (value : String) : List String :=
  (Text.splitOn ':' value.toList).map String.ofList

/-- A directory of a search path; one that starts with a tilde lies in the home directory. -/
def expandHome (home : Option String) (dir : String) : String :=
  match (Text.splitOn '/' dir.toList).map String.ofList, home.filter (· != "") with
  | "~" :: names, some home =>
    Host.Path.joinAll home (names.filter fun name => name != "" && name != ".")
  | _, _ => dir

/-- Whether a path leads to a file that can be run. -/
def isProgram (h : Host) (path : String) : Bool :=
  h.isFile path && (h.mode? path).any fun mode => mode &&& 0o111 != 0

/-- The first file of a name that can be run in the directories of a search path. -/
def findProgram? (h : Host) (dirs : List String) (name : String) : Option String :=
  (dirs.map fun dir => Host.Path.join dir name).find? (isProgram h)

/-- The environment as names and values. -/
def settings (env : Environment) : List (String × String) :=
  [("GOROOT", env.goroot), ("GOMODCACHE", env.gomodcache), ("GOPATH", env.gopath),
    ("HOME", env.home), ("PATH", env.path)].filterMap fun (name, value) => value.map (name, ·)

/-- What a command answers to a question about a variable, without the blanks around it, if it
succeeds in time. -/
def askCommand? (h : Host) (env : Environment) (command name : String) (timeout : Nat) :
    Option String := do
  let outcome ← Script.launch? h (settings env) command ["env", name]
  if outcome.status = 0 && outcome.elapsed.any (· < timeout) then
    let answer ← Host.decode? outcome.output
    return String.ofList (Text.trim answer.toList)
  else none

/-- The root of the installation. -/
def goroot? (h : Host) (env : Environment) (timeout : Nat) : Option String :=
  match nonBlank env.goroot with
  | some goroot => some goroot
  | none => do
    let dirs := splitPaths (← env.path)
    let command ← findProgram? h (dirs.map (expandHome env.home)) "go"
    (askCommand? h env command "GOROOT" timeout).filter (· != "")

/-- The home directory; that of the administrator if the variable is empty. -/
def home? (env : Environment) : Option String :=
  env.home.map fun home => if home = "" then "/root" else home

def modcache? (env : Environment) : Option String :=
  match nonBlank env.gomodcache with
  | some cache => some cache
  | none =>
    let fromPath := (nonBlank env.gopath).bind fun gopath =>
      (splitPaths gopath).find? (· != "")
    match fromPath with
    | some root => some (Host.Path.joinAll root ["pkg", "mod"])
    | none => (home? env).map fun home => Host.Path.joinAll home ["go", "pkg", "mod"]

/-- Where to look for packages from a workspace, as the environment tells. -/
def discover (h : Host) (env : Environment) (workspace : String) : SearchPath :=
  ⟨workspace, goroot? h env standardTimeout, modcache? env⟩

end Toolchain

end Stubwright
