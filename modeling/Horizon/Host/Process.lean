import Horizon.FileTree.Operation

/-!
Processes of the host system. A host starts a program with arguments and waits for its
end; what the program has written to files, what it has complained about and how it ended
is all that is known of it.
-/

namespace Horizon

/-- How a process ended. -/
inductive ExitStatus where
  | code (n : Nat)
  | signal (n : Nat)
deriving DecidableEq, Repr

namespace ExitStatus

/-- The names of the signals a process may be ended by. -/
def signalName : Nat → Text
  | 1 => " (SIGHUP)".toList
  | 2 => " (SIGINT)".toList
  | 3 => " (SIGQUIT)".toList
  | 4 => " (SIGILL)".toList
  | 5 => " (SIGTRAP)".toList
  | 6 => " (SIGABRT)".toList
  | 7 => " (SIGBUS)".toList
  | 8 => " (SIGFPE)".toList
  | 9 => " (SIGKILL)".toList
  | 10 => " (SIGUSR1)".toList
  | 11 => " (SIGSEGV)".toList
  | 12 => " (SIGUSR2)".toList
  | 13 => " (SIGPIPE)".toList
  | 14 => " (SIGALRM)".toList
  | 15 => " (SIGTERM)".toList
  | 16 => " (SIGSTKFLT)".toList
  | 24 => " (SIGXCPU)".toList
  | 25 => " (SIGXFSZ)".toList
  | 26 => " (SIGVTALRM)".toList
  | 27 => " (SIGPROF)".toList
  | 29 => " (SIGIO)".toList
  | 30 => " (SIGPWR)".toList
  | 31 => " (SIGSYS)".toList
  | _ => []

def render : ExitStatus → Text
  | .code n => "exit status: ".toList ++ Numeral.write n
  | .signal n => "signal: ".toList ++ Numeral.write n ++ signalName n

end ExitStatus

/-- The variables of the environment that a process sees. -/
abbrev Environment := List (Text × Text)

/-- What a process hands on to the programs that it starts. -/
structure Inheritance where
  environment : Environment := []
  /-- What can still be read from the standard input. -/
  input : Bytes := []
deriving DecidableEq

/-- What is known of a program that was started and has ended. -/
structure Execution where
  errors : Text := []
  status : ExitStatus
  /-- What it has put on a standard stream of the process that has started it, where
  that stream is the place for its output. -/
  output : Text := []
deriving DecidableEq

/-- A program to be started, with the place that takes its output. -/
structure Launch where
  program : Path
  args : List Text
  output : Location
deriving DecidableEq, Repr

/-- Starts a program and waits for its end. What the program writes goes into the tree. -/
abbrev Host := Launch → FileOp Execution

end Horizon
