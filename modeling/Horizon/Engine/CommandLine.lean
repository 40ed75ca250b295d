import Horizon.Engine.Request

/-!
The command line of an engine run. The engine counts its increments from 1 and steps
count from 0, so the bounds are moved up by one. A limit on the running time is kept by
a `timeout` wrapper in front of the engine.
-/

namespace Horizon

structure EngineConfig where
  executable : Path := "clingo".toList
  /-- Seconds before the engine is stopped; 0 for no limit. -/
  maxTime : UInt32 := 0
  timeoutAvailable : Bool := false
  /-- Background files shared with the run. -/
  linkFiles : List Path := []
  /-- Background files the run gets a copy of, when its request asks for them. -/
  copyFiles : List Path := []
deriving DecidableEq, Repr

namespace EngineConfig

/-- The time limit, if there is one and it can be kept. -/
def timeout? (config : EngineConfig) : Option UInt32 :=
  if config.timeoutAvailable && 0 < config.maxTime then some config.maxTime else none

end EngineConfig

structure CommandLine where
  timeout : Option UInt32
  executable : Path
  firstIncrement : UInt32
  lastIncrement : UInt32
  files : List Path
  program : Path
  output : Path
  answers : UInt32
deriving DecidableEq, Repr

namespace CommandLine

/-- The increment that stands for a step; the last number stands for itself. -/
def increment (step : Step) : UInt32 := if step = 4294967295 then step else step + 1

def numeral (n : UInt32) : Text := Numeral.write n.toNat

/-- The command line for a request whose background files are staged in `dir`. -/
def ofRequest (config : EngineConfig) (request : Request) (dir : Path) (files : List Path) :
    CommandLine where
  timeout := config.timeout?
  executable := config.executable
  firstIncrement := increment request.initialStep
  lastIncrement := increment request.finalStep
  files := files
  program := Path.join dir (request.label ++ ".asp".toList)
  output := Path.join dir (request.label ++ "_output.txt".toList)
  answers := request.answers

/-- The engine's arguments except the last one, the number of answers. -/
def leadingArgs (c : CommandLine) : List Text :=
  ["--warn".toList, "no-atom-undefined".toList, "-cimin=".toList ++ numeral c.firstIncrement,
    "-cimax=".toList ++ numeral c.lastIncrement] ++ c.files ++ [c.program]

def engineArgs (c : CommandLine) : List Text := c.leadingArgs ++ [numeral c.answers]

/-- The program that is started: the wrapper if there is a time limit. -/
def spawned (c : CommandLine) : Path :=
  match c.timeout with
  | some _ => "timeout".toList
  | none => c.executable

def spawnedArgs (c : CommandLine) : List Text :=
  match c.timeout with
  | some seconds => numeral seconds :: c.executable :: c.engineArgs
  | none => c.engineArgs

/-- The equivalent command for a shell, with the output redirected. -/
def render (c : CommandLine) : Text :=
  (match c.timeout with
   | some seconds => "timeout ".toList ++ numeral seconds ++ [' ']
   | none => []) ++
    c.executable ++ ' ' :: (Text.join [' '] c.leadingArgs ++ " > ".toList ++ c.output ++
      ' ' :: numeral c.answers)

end CommandLine
end Horizon
