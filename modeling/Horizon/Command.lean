import Horizon.Configuration

/-!
The command: `[FILE|-] [STEP]`. It reads a program, has it solved up to a step, and
prints each answer as a line of atoms. Without a file it greets whoever types the program
in at a terminal. A run either prints its answers and succeeds, or reports one error and
prints no answer.
-/

namespace Horizon

structure Invocation where
  args : List Text := []
  input : Bytes := []
  environment : Environment := []
  /-- Whether the standard input is a terminal. -/
  terminalInput : Bool := false
  /-- Whether the standard output is a terminal. -/
  terminalOutput : Bool := false
deriving DecidableEq

inductive CommandError where
  | invalidStep (text : Text) (cause : NumeralError)
  | unreadableFile (path : Path) (cause : FileError)
  | unreadableInput
  | invalidMaxTime (text : Text) (cause : NumeralError)
  | engine (error : EngineError)
deriving DecidableEq, Repr

namespace CommandError

def message : CommandError → Text
  | .invalidStep text _ => "Invalid step ".toList ++ text
  | .unreadableFile path _ => "Reading ".toList ++ path
  | .unreadableInput => "Reading from stdin".toList
  | .invalidMaxTime text _ => "Invalid TEMPO_MAX_TIME ".toList ++ text
  | .engine error => error.message

def cause? : CommandError → Option Text
  | .invalidStep _ cause | .invalidMaxTime _ cause => some cause.message
  | .unreadableFile _ cause => some cause.message
  | .unreadableInput => some FileError.notText.message
  | .engine error => error.cause?.map FileError.message

/-- The report of an error, with its cause in a paragraph of its own. -/
def render (e : CommandError) : Text :=
  "Error: ".toList ++ e.message ++ ['\n'] ++
    match e.cause? with
    | some cause => "\nCaused by:\n    ".toList ++ cause ++ ['\n']
    | none => []

end CommandError

/-- What a run of the command leaves. -/
structure CommandResult where
  code : Nat
  output : Text
  errors : Text
  tree : FileTree

namespace Command

def defaultTemporary : Path := "/tmp".toList

def configuration (env : Environment) : Except CommandError Configuration :=
  let base := Configuration.default ((env.lookup "TMPDIR".toList).getD defaultTemporary)
  let maxTime : Except CommandError UInt32 :=
    match env.lookup "TEMPO_MAX_TIME".toList with
    | none => .ok base.engine.maxTime
    | some text =>
        match Numeral.read32 text with
        | .ok n => .ok n
        | .error cause => .error (.invalidMaxTime text cause)
  maxTime.map fun maxTime =>
    { base with
      workingDirectory := (env.lookup "TEMPO_WORKDIR".toList).getD base.workingDirectory
      engine :=
        { base.engine with
          executable := (env.lookup "TEMPO_ENGINE".toList).getD base.engine.executable
          maxTime := maxTime
          timeoutAvailable := ["1".toList, "true".toList].contains
            ((env.lookup "TEMPO_TIMEOUT".toList).getD []) } }

def levels (env : Environment) : Levels :=
  Levels.ofNames ((env.lookup "TEMPO_TRACE".toList).getD [])

/-- The step to solve up to, 0 if none is given. -/
def step : List Text → Except CommandError Step
  | _ :: text :: _ =>
      match Numeral.read32 text with
      | .ok n => .ok n
      | .error cause => .error (.invalidStep text cause)
  | _ => .ok 0

/-- Whether a path leads to the standard input of the process that opens it. -/
def isInput (t : FileTree) (p : Path) : Bool :=
  match t.status .target p with
  | .ok e => e = .descriptor 0
  | .error _ => false

/-- The program, from the named file or from the standard input, and what can still be
read from the standard input then. -/
def source (i : Invocation) (t : FileTree) : Except CommandError (Text × Bytes) :=
  let input := fun failure : CommandError =>
    (Utf8.decode? i.input).elim (.error failure) fun text => .ok (text, [])
  match i.args.head? with
  | none | some ['-'] => input .unreadableInput
  | some path =>
      if isInput t path then input (.unreadableFile path .notText)
      else
        match t.readText path with
        | .ok text => .ok (text, i.input)
        | .error cause => .error (.unreadableFile path cause)

def welcome : Text :=
  "Welcome to Tempo! Please enter your program, terminated with Ctrl-D.\n".toList

/-- What is printed before the program is read. -/
def greeting (i : Invocation) : Text :=
  if i.args.isEmpty && i.terminalInput && i.terminalOutput then welcome else []

def renderGroup (group : List Atom) : Text :=
  '\x7b' :: (Text.join [' '] (group.map Atom.render) ++ ['\x7d', '\n'])

def renderGroups : List (List Atom) → Text
  | [] => "UNSATISFIABLE\n".toList
  | groups => groups.flatMap renderGroup

def renderReply : Reply → Text
  | .atomGroups groups => renderGroups groups
  | _ => []

/-- What the command is asked to do, and what it leaves to be read of its input. -/
structure Task where
  query : Query
  configuration : Configuration
  input : Bytes

def prepare (i : Invocation) (t : FileTree) : Except CommandError Task := do
  let n ← step i.args
  let (program, input) ← source i t
  return ⟨Query.plain program n, ← configuration i.environment, input⟩

/-- Runs the command, with programs started as the host does for what they inherit. Of
what can fail only the step comes before the greeting, and with a step there is none. -/
def run (host : Inheritance → Host) (i : Invocation) (t : FileTree) : CommandResult :=
  match prepare i t with
  | .error e => ⟨1, greeting i, e.render, t⟩
  | .ok task =>
      let outcome :=
        task.configuration.ask (host ⟨i.environment, task.input⟩) (levels i.environment)
          task.query t
      let output := greeting i ++ Record.outputAll outcome.records
      let errors := Record.renderAll outcome.records
      match outcome.result with
      | .error e => ⟨1, output, errors ++ (CommandError.engine e).render, outcome.state⟩
      | .ok reply => ⟨0, output ++ renderReply reply, errors, outcome.state⟩

end Command
end Horizon
