import Horizon.Output.Event
import Horizon.AnswerSet
import Horizon.Trace

/-!
Reading answers from captured output. Each answer is read on its own, so a malformed
one is dropped without harm to the others; an interrupted run loses its last answer,
which the engine may not have finished.
-/

namespace Horizon

/-- What a late report of unsatisfiability does to the answers found before it. -/
inductive Policy where
  | discard
  | keep
deriving DecidableEq, Repr

/-- The direction in which costs improve. -/
inductive Direction where
  | minimize
  | maximize
deriving DecidableEq, Repr

namespace Direction

def improves (direction : Direction) (cost : Int) : Option Int → Bool
  | none => true
  | some best =>
      match direction with
      | .minimize => cost < best
      | .maximize => best < cost

end Direction

namespace Reading

/-- Reads every item of a list, or gives the first error. -/
def each {α : Type} (read : Text → Except ReadError α) : List Text → Except ReadError (List α)
  | [] => .ok []
  | w :: ws =>
      match read w with
      | .error e => .error e
      | .ok a => (each read ws).map (a :: ·)

/-- The content of an answer as fluents. -/
def fluents (content : Text) : Except ReadError AnswerSet :=
  (each Fluent.read (Text.words content)).map AnswerSet.mk

/-- The content of an answer as plain atoms. -/
def atoms (content : Text) : Except ReadError (List Atom) :=
  each Atom.read (Text.words content)

def dropped (e : ReadError) : Text := "Dropping answer: ".toList ++ e.message

/-- What remains of the answers found, the latest one first, when the output ends. -/
def finish {α : Type} (levels : Levels) (found : List α) (interrupted : Bool) :
    Traced (List α) :=
  match interrupted, found with
  | true, _ :: earlier => do
      Traced.note levels .parse "Run interrupted; dropped its last answer".toList
      return earlier.reverse
  | _, _ => return found.reverse

/-- Goes through the events with the answers found so far, the latest one first. -/
def collect {α : Type} (policy : Policy) (read : Text → Except ReadError α) (levels : Levels)
    (found : List α) (interrupted : Bool) : List Event → Traced (List α)
  | [] => finish levels found interrupted
  | .unsatisfiable :: _ =>
      match policy with
      | .discard => return []
      | .keep => finish levels found interrupted
  | .interrupted :: es => collect policy read levels found true es
  | .answer content :: es =>
      match read content with
      | .ok a => collect policy read levels (a :: found) interrupted es
      | .error e => do
          Traced.note levels .parse (dropped e)
          collect policy read levels found interrupted es
  | .unknown :: es => collect policy read levels found interrupted es
  | .optimization _ :: es => collect policy read levels found interrupted es

def answerSets (policy : Policy) (levels : Levels) (text : Text) : Traced (List AnswerSet) :=
  collect policy fluents levels [] false (Event.scan text)

def atomGroups (policy : Policy) (levels : Levels) (text : Text) : Traced (List (List Atom)) :=
  collect policy atoms levels [] false (Event.scan text)

def newBest (cost : Int) (answer : AnswerSet) : Text :=
  "New best cost ".toList ++ Numeral.writeInt cost ++ ": ".toList ++ answer.render

/-- Goes through the events with the best costed answer so far and the answer whose cost
is still awaited. -/
def search (direction : Direction) (levels : Levels) (best : Option (Int × AnswerSet))
    (current : Option AnswerSet) : List Event → Traced (Option (Int × AnswerSet))
  | [] => return best
  | .unsatisfiable :: _ => return best
  | .unknown :: _ => return best
  | .interrupted :: es => search direction levels best current es
  | .answer content :: es =>
      match fluents content with
      | .ok a => search direction levels best (some a) es
      | .error e => do
          Traced.note levels .parse (dropped e)
          search direction levels best none es
  | .optimization cost :: es =>
      match current with
      | none => search direction levels best none es
      | some answer =>
          if direction.improves cost (best.map Prod.fst) then do
            Traced.note levels .parse (newBest cost answer)
            search direction levels (some (cost, answer)) none es
          else search direction levels best none es

/-- The first of the best costed answers; the empty one if there is none. -/
def optimal (direction : Direction) (levels : Levels) (text : Text) : Traced AnswerSet := do
  let best ← search direction levels none none (Event.scan text)
  return (best.map Prod.snd).getD {}

end Reading
end Horizon
