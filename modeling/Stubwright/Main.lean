import Stubwright.Command

/-!
# Command line

Runs the command on the disk.  What the command looks at is read first, into a `Host`: the
directories above the workspace, those that a pattern covers, and those that may hold the packages
that are needed.  Then the command runs on that `Host`, and a file that it changed is written back.

The root of the installation is taken from the arguments or the environment; no other program is
asked for it.
-/

namespace Stubwright.Main

/-- Whether a file is read together with its directory. -/
def isRead (name : String) : Bool :=
  name == "go.mod" || Build.keepsFile name

/-- Reads a directory, without what lies below it, and gives the names of the directories in it. -/
def readDir (h : Host) (path : String) : IO (Host × List String) := do
  let dir := (← IO.currentDir) / path
  if path == "" || !(← dir.isDir) then return (h, [])
  let place := h.nominalPlace path
  let mut h := h.put place (.dir Host.programMode)
  let mut dirs := []
  for entry in ← dir.readDir do
    let there := place ++ [entry.fileName]
    if ← entry.path.isDir then
      h := h.set there (.dir Host.programMode)
      dirs := entry.fileName :: dirs
    else
      let bytes ← if isRead entry.fileName then IO.FS.readBinFile entry.path else pure .empty
      h := h.set there (.file bytes.toList Host.fileMode)
  return (h, dirs)

/-- Reads a directory and everything below it. -/
partial def readTree (h : Host) (path : String) : IO Host := do
  let (h, dirs) ← readDir h path
  let mut h := h
  for dir in dirs do
    h ← readTree h (Host.Path.join path dir)
  return h

/-- Reads the directories of packages, and of those that they import. -/
partial def readPackages (w : Workspace) (h : Host) (seen : List String) :
    List String → IO Host
  | [] => return h
  | path :: queue => do
    if seen.contains path then return ← readPackages w h seen queue
    let mut h := h
    for dir in w.candidateDirs path do
      h := (← readDir h dir).1
    let imported := match Program.readPackage (w.toSource h) path false with
      | .ok (some pkg) => Program.importPaths pkg
      | _ => []
    readPackages w h (path :: seen) (queue ++ imported)

/-- Reads what a request looks at. -/
def readFor (h : Host) (env : Environment) (r : Command.Request) : IO Host := do
  let mut h := h
  for dir in Host.Path.ancestors (r.workspace.getD (Command.workingDirectory h)) do
    h := (← readDir h dir).1
  match Command.openWorkspace h env r.workspace r.goroot with
  | .error _ => return h
  | .ok w =>
    match r.task with
    | .implement interface concrete .. =>
      let roots := [interface, concrete].filterMap fun text =>
        (TypeRef.parse? text).map (·.package)
      readPackages w h [] roots
    | .list pattern _ =>
      let source := w.toSource h
      let pattern := match pattern with
        | some pattern => pattern
        | none => source.defaultPattern.toOption.getD ""
      h ← readTree h w.places.workspace
      match wildcardBase? (w.absolutePattern h pattern) with
      | some base =>
        for dir in w.candidateDirs base do
          h ← readTree h dir
      | none => pure ()
      readPackages w h [] (w.expandPattern h pattern)

def writeChanges (before after : Host) : IO Unit :=
  for (place, entry) in after.entries do
    match entry, before.entry? place with
    | .file new _, some (.file old _) =>
      if new != old then
        IO.FS.writeBinFile ("/" ++ String.intercalate "/" place) ⟨new.toArray⟩
    | _, _ => pure ()

def environment : IO Environment :=
  return ⟨← IO.getEnv "GOROOT", ← IO.getEnv "GOMODCACHE", ← IO.getEnv "GOPATH",
    ← IO.getEnv "HOME", none⟩

/-- The file system with nothing but the way to the working directory. -/
def start : IO Host := do
  let cwd := Host.Path.steps (← IO.currentDir).toString
  let h : Host := ⟨cwd, []⟩
  return h.makeDirs [] cwd

end Stubwright.Main

/-- Runs the command on the disk. -/
def main (args : List String) : IO UInt32 := do
  let env ← Stubwright.Main.environment
  let before ← Stubwright.Main.start
  let before ← match Stubwright.Command.Arguments.ofList args with
    | .request r => Stubwright.Main.readFor before env r
    | .version => pure before
    | .mistake => do
      IO.eprintln "usage: implement --iface R --impl R [--write] [--json] | list [--path P] [--json]"
      pure before
  let result := Stubwright.Command.run before env args
  Stubwright.Main.writeChanges before result.host
  IO.print result.out
  IO.eprint result.diagnostics
  return result.status.toUInt32
