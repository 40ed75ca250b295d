import Horizon.Text.Blank
import Horizon.Text.Line
import Horizon.Text.Numeral

/-!
The events in captured engine output. Most lines mean nothing. An answer is introduced
by one line or several that mention `Answer`; the first line after them that does not is
its content, whatever that line says.
-/

namespace Horizon

inductive Event where
  | unsatisfiable
  | unknown
  | interrupted
  | answer (content : Text)
  | optimization (cost : Int)
deriving DecidableEq, Repr

namespace Event

def unsatisfiableMark : Text := "UNSATISFIABLE".toList

def unknownMark : Text := "UNKNOWN".toList

def interruptedMark : Text := "INTERRUPTED : 1".toList

def answerMark : Text := "Answer".toList

def costMark : Text := "Optimization: ".toList

/-- What a line means where no answer is awaited. -/
inductive LineKind where
  | event (e : Event)
  | answerHeader
  | noise
deriving DecidableEq, Repr

/-- The cost right after the first mark on a line, if it is a 64-bit number. -/
def cost? (line : Text) : Option Int := (Text.after? costMark line).bind Numeral.leading64?

def classify (line : Text) : LineKind :=
  if line = unsatisfiableMark then .event .unsatisfiable
  else if line = unknownMark then .event .unknown
  else if Text.mentions line interruptedMark then .event .interrupted
  else if Text.mentions line answerMark then .answerHeader
  else
    match cost? line with
    | some c => .event (.optimization c)
    | none => .noise

/-- The events of lines whose ends are trimmed; `awaiting` says that an answer header has
been read and its content has not. -/
def ofLines : (awaiting : Bool) → List Text → List Event
  | false, [] => []
  | true, [] => [.answer []]
  | true, l :: ls =>
      if Text.mentions l answerMark then ofLines true ls else .answer l :: ofLines false ls
  | false, l :: ls =>
      match classify l with
      | .event e => e :: ofLines false ls
      | .answerHeader => ofLines true ls
      | .noise => ofLines false ls

/-- The events of a text, in order. -/
def scan (s : Text) : List Event := ofLines false ((Text.lines s).map Text.trimEnd)

end Event
end Horizon
