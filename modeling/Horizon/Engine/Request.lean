import Horizon.Fluent
import Horizon.Host.Process
import Horizon.Trace

/-!
The contract with a solving engine. A request carries a program and the steps to solve
it for; the answer is the engine's captured output, which is read elsewhere. An engine
is any function of that shape over a state of its own; what it reports is its own matter.
-/

namespace Horizon

structure Request where
  program : Text
  initialStep : Step
  finalStep : Step
  /-- Names the files of the run; runs of one label share them. -/
  label : Text
  /-- How many answers are wanted; 0 for all. -/
  answers : UInt32
  useCopyFiles : Bool
deriving DecidableEq, Repr

structure Transcript where
  outputPath : Path
  text : Text
deriving DecidableEq, Repr

namespace ExitStatus

/-- Whether an engine that ended so has failed. Its codes for outcomes are no failures. -/
def isFailure : ExitStatus → Bool
  | .code n => [33, 65, 126, 127, 128].contains n
  | .signal _ => true

end ExitStatus

/-- Where a run of the engine fails, with the cause. -/
inductive EngineError where
  | stage (cause : FileError)
  | writeProgram (path : Path) (cause : FileError)
  | spawn (command : Text) (cause : FileError)
  | failed (command : Text) (status : ExitStatus)
  | output (path : Path) (cause : FileError)
deriving DecidableEq, Repr

namespace EngineError

def message : EngineError → Text
  | .stage _ => "unable to stage the query directory".toList
  | .writeProgram path _ => "unable to write program ".toList ++ path
  | .spawn command _ => "unable to run `".toList ++ command ++ "`".toList
  | .failed command status => '`' :: command ++ "` failed (".toList ++ status.render ++ [')']
  | .output path _ => "unable to capture engine output in ".toList ++ path

def cause? : EngineError → Option FileError
  | .stage cause | .writeProgram _ cause | .spawn _ cause | .output _ cause => some cause
  | .failed _ _ => none

end EngineError

/-- What a run leaves: its result, all it has to report, and the state after it. -/
structure Outcome (σ α : Type) where
  result : Except EngineError α
  records : List Record
  state : σ

/-- An engine over the states `σ`. -/
abbrev Engine (σ : Type) := Request → σ → Outcome σ Transcript

end Horizon
