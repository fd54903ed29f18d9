import Stubwright.Command.Arguments
import Stubwright.Generate
import Stubwright.Listing
import Stubwright.Response
import Stubwright.Toolchain

/-!
# The command

What the command does on a file system with an environment: what it writes, how it ends, and what
it leaves behind.
-/

namespace Stubwright.Command

/-- What a run of the command comes to. -/
structure Result where
  /-- The exit code. -/
  status : Nat
  out : String
  /-- What is written beside it. -/
  diagnostics : String
  /-- The file system afterwards. -/
  host : Host
deriving Inhabited

/-- The name and version of the command. -/
def versionText : String := "goimpl 0.1.0\n"

def failed (h : Host) (json : Bool) (e : CommandError) : Result :=
  let told := Response.tell e json
  ⟨e.code, told.out, told.diagnostics, h⟩

/-- A reference to a type that was given as an option. -/
def typeRef (option value : String) : Except CommandError TypeRef :=
  match TypeRef.parse? value with
  | some r => .ok r
  | none => .error (.invalidArguments
      ("invalid " ++ option ++ " '" ++ value ++ "', expected path/to/pkg.Name") none)

/-- Generates stubs, and gives what is to be written to the output. -/
def implement (source : PackageSource) (h : Host) (interface concrete : String)
    (write json : Bool) : Except CommandError (String × Host) := do
  let interface ← typeRef "--iface" interface
  let concrete ← typeRef "--impl" concrete
  let (outcome, h) ← (source.generateInto h interface concrete write).mapError .ofStub
  if json then
    return (Response.implement interface.display concrete.display outcome.written
      outcome.implementation, h)
  match outcome.implementation with
  | some implementation =>
    return (if outcome.written then "" else implementation.fileContent, h)
  | none => return ("", h)

/-- Lists interfaces, and gives what is to be written to the output. -/
def list (source : PackageSource) (pattern : Option String) (json : Bool) :
    Except CommandError String := do
  let pattern ← match pattern with
    | some pattern => pure pattern
    | none => source.defaultPattern.mapError .ofStub
  let interfaces ← (source.listInterfaces pattern).mapError .ofStub
  return if json then Response.list pattern interfaces
    else String.join (interfaces.map (· ++ "\n"))

def perform (source : PackageSource) (h : Host) (task : Task) : Result :=
  let result : Except CommandError (String × Host) := match task with
    | .implement interface concrete write json =>
      implement source h interface concrete write json
    | .list pattern json => (list source pattern json).map fun out => (out, h)
  match result with
  | .ok (out, h) => ⟨0, out, "", h⟩
  | .error e => failed h task.json e

def workingDirectory (h : Host) : String :=
  "/" ++ String.intercalate "/" h.cwd

/-- The workspace that a request is about. -/
def openWorkspace (h : Host) (env : Environment) (workspace goroot : Option String) :
    Except CommandError Workspace :=
  let dir := workspace.getD (workingDirectory h)
  if h.isDir dir then
    let places := Toolchain.discover h env dir
    let places := match goroot with
      | some goroot => { places with goroot := some goroot }
      | none => places
    (Workspace.find h places).mapError fun e => .ofLoad (.badModule e)
  else .error (.invalidArguments ("workspace " ++ dir ++ " is not a directory") none)

def run (h : Host) (env : Environment) (args : List String) : Result :=
  match Arguments.ofList args with
  | .mistake => ⟨2, "", "", h⟩
  | .version => ⟨0, versionText, "", h⟩
  | .request r =>
    match openWorkspace h env r.workspace r.goroot with
    | .error e => failed h r.task.json e
    | .ok workspace => perform (workspace.toSource h) h r.task

end Stubwright.Command
