import Horizon.Command

/-!
The command on a system. The files that a run may look at are taken into a file tree, the
command is run on the tree, and what the run has changed is written back. Programs are
started by a host, which is given.
-/

namespace Horizon
namespace Main

/-- The variables that the command looks at, and those that engines do. -/
def watched : List String :=
  ["TMPDIR", "PATH", "TEMPO_ENGINE", "TEMPO_MAX_TIME", "TEMPO_TIMEOUT", "TEMPO_WORKDIR",
    "TEMPO_TRACE", "HOME", "USER", "LANG"]

/-- The location that a path names if none of its names is a link. -/
def location (here : Location) (p : Path) : Location :=
  (Path.names p).foldl
    (fun l n => if n = [] || n = ['.'] then l else if n = ['.', '.'] then l.tail else n :: l)
    (if Path.isAbsolute p then [] else here)

/-- The paths that a run may look at. An engine that is looked for is the host's to find. -/
def paths (i : Invocation) : List Path :=
  let staged :=
    match Command.configuration i.environment with
    | .error _ => []
    | .ok c =>
        let dir := c.workingDirectory
        [dir, Path.join dir "query.asp".toList, Path.join dir "query_output.txt".toList] ++
          [c.engine.executable].filter (·.contains '/')
  i.args.take 1 ++ staged

/-- Takes a file or a directory of the system into a tree. -/
def take (t : FileTree) (p : Path) : IO FileTree := do
  let l := location t.here p
  if l.isEmpty || (t.at? l).isSome then return t
  try
    let content ← IO.FS.readBinFile (String.ofList (FileTree.pathOf l))
    return t.put l (.file content.toList true)
  catch e =>
    match e with
    | .noFileOrDirectory .. => return t
    | _ => return t.put l .directory

/-- Takes paths with all their parents. -/
def takeAll (t : FileTree) (ps : List Path) : IO FileTree :=
  (ps.flatMap fun p => (p :: Path.ancestors p).reverse).foldlM take t

/-- Writes an entry of a tree that an older tree does not have. -/
def giveBack (old : FileTree) (p : Location × Entry) : IO Unit := do
  if old.at? p.1 = some p.2 then return ()
  let name := String.ofList (FileTree.pathOf p.1)
  match p.2 with
  | .directory => IO.FS.createDirAll name
  | .file content _ => IO.FS.writeBinFile name ⟨content.toArray⟩
  | .link _ | .sink | .descriptor _ => return ()

/-- Takes away an entry of a tree that a newer tree does not have. -/
def takeAway (new : FileTree) (p : Location × Entry) : IO Unit := do
  if (new.at? p.1).isSome then return ()
  let name := String.ofList (FileTree.pathOf p.1)
  match p.2 with
  | .directory => IO.FS.removeDir name
  | .file .. => IO.FS.removeFile name
  | .link _ | .sink | .descriptor _ => return ()

/-- What has gone is taken away with the lowest entries first; then directories are
written before files, so that every file has its parents. -/
def giveBackAll (old new : FileTree) : IO Unit := do
  old.entries.reverse.forM (takeAway new)
  let (directories, others) := new.entries.partition fun p => p.2.isDirectory
  (directories ++ others).forM (giveBack old)

/-- Runs the command, on a tree that holds what programs of the host need. -/
def perform (host : Inheritance → Host) (base : FileTree) (args : List String) : IO UInt32 := do
  let environment ← watched.filterMapM fun name => do
    return (← IO.getEnv name).map fun value => (name.toList, value.toList)
  let stdin ← IO.getStdin
  let stdout ← IO.getStdout
  let start : Invocation :=
    { args := args.map String.toList, environment := environment
      terminalInput := ← stdin.isTty, terminalOutput := ← stdout.isTty }
  stdout.putStr (String.ofList (Command.greeting start))
  stdout.flush
  -- A program that is in a file leaves the terminal to the engine.
  let waits := start.args.head?.getD ['-'] = ['-'] || !start.terminalInput
  let input ← if waits then stdin.readBinToEnd else pure .empty
  let invocation := { start with input := input.toList }
  let here := location [] (toString (← IO.currentDir)).toList
  let known ← takeAll { base with here := here } (paths invocation)
  let result := Command.run host invocation known
  giveBackAll known result.tree
  (← IO.getStderr).putStr (String.ofList result.errors)
  stdout.putStr (String.ofList (result.output.drop (Command.greeting start).length))
  return UInt32.ofNat result.code

end Main
end Horizon
