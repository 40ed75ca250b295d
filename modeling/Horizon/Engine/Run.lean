import Horizon.Engine.CommandLine
import Horizon.Staging

/-!
The engine as a program of the host system. A run stages its background files, writes
the program, starts the engine with its output redirected, and reads the output back
unless the engine has failed. It reports on its way, at the levels that the engine was
set up with.
-/

namespace Horizon

namespace Outcome

variable {σ α β : Type}

def andThen (o : Outcome σ α) (next : α → σ → Outcome σ β) : Outcome σ β :=
  match o.result with
  | .error e => ⟨.error e, o.records, o.state⟩
  | .ok a =>
      let p := next a o.state
      ⟨p.result, o.records ++ p.records, p.state⟩

/-- A file operation as a part of a run, which says where the run fails with it. -/
def ofFileOp (op : FileOp α) (failure : FileError → EngineError) (t : FileTree) :
    Outcome FileTree α :=
  match op t with
  | (.error e, t') => ⟨.error (failure e), [], t'⟩
  | (.ok a, t') => ⟨.ok a, [], t'⟩

/-- Records as a part of a run, which cannot fail. -/
def report (x : Traced Unit) (s : σ) : Outcome σ Unit := ⟨.ok (), x.records, s⟩

end Outcome

/-- An engine's configuration, the directory where its queries are staged, and the levels
at which it reports. -/
structure Installation where
  config : EngineConfig := {}
  directory : Path
  levels : Levels := {}
deriving DecidableEq, Repr

namespace Installation

/-- The default directory for queries, below the directory for temporary files. -/
def defaultDirectory (temporary : Path) : Path := Path.join temporary "tempo".toList

def stagedText (staged : Staged) : Text :=
  "Staged ".toList ++ Numeral.write staged.files.length ++ " background file(s) in ".toList ++
    staged.path

def exitedText (status : ExitStatus) : Text := "Engine exited with ".toList ++ status.render

def stage (i : Installation) (request : Request) : FileOp Staged :=
  Staging.stage i.directory i.config.linkFiles
    (if request.useCopyFiles then i.config.copyFiles else [])

/-- A text that is written by a path, where the path leads to a standard stream. -/
def streamed (t : FileTree) (p : Path) (text : Text) : Traced Unit :=
  match t.status .target p with
  | .ok (.descriptor 1) => ⟨(), [.printed text]⟩
  | .ok (.descriptor 2) => ⟨(), [.passed text]⟩
  | _ => return ()

/-- What there is to report of a command line whose program has ended. Its output was
opened in the tree `t`. -/
def ended (levels : Levels) (c : CommandLine) (t : FileTree) (execution : Execution) :
    Traced Unit := do
  streamed t c.output execution.output
  ⟨(), [.passed execution.errors]⟩
  Traced.note levels .invoke (exitedText execution.status)

/-- Reads the output of a command line whose program has ended, unless it has failed. -/
def capture (c : CommandLine) (status : ExitStatus) (t : FileTree) :
    Outcome FileTree Transcript :=
  if status.isFailure then ⟨.error (.failed c.render status), [], t⟩
  else
    match t.readText c.output with
    | .error e => ⟨.error (.output c.output e), [], t⟩
    | .ok text => ⟨.ok ⟨c.output, text⟩, [], t⟩

/-- Runs a command line whose program has been written. -/
def execute (host : Host) (levels : Levels) (c : CommandLine) (t : FileTree) :
    Outcome FileTree Transcript :=
  (Outcome.report (Traced.note levels .invoke ("Running ".toList ++ c.render)) t).andThen
    fun _ t =>
      (Outcome.ofFileOp (FileTree.openForWriting c.output false) (.output c.output) t).andThen
        fun place t =>
          (Outcome.ofFileOp (host ⟨c.spawned, c.spawnedArgs, place⟩) (.spawn c.render) t).andThen
            fun execution t' =>
              (Outcome.report (ended levels c t execution) t').andThen fun _ t' =>
                capture c execution.status t'

/-- Runs the installed engine for a request. -/
def solve (host : Host) (i : Installation) : Engine FileTree := fun request t =>
  (Outcome.ofFileOp (i.stage request) .stage t).andThen fun staged t =>
    (Outcome.report (Traced.note i.levels .invoke (stagedText staged)) t).andThen fun _ t =>
      let c := CommandLine.ofRequest i.config request staged.path staged.files
      let program := request.program ++ ['\n']
      (Outcome.ofFileOp (FileTree.writeText c.program program) (.writeProgram c.program) t).andThen
        fun _ t' =>
          (Outcome.report (streamed t c.program program) t').andThen fun _ t' =>
            execute host i.levels c t'

end Installation
end Horizon
