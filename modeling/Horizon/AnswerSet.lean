import Horizon.Fluent

/-!
Answer sets, the sets of predicates that count as actions, and the two filters applied
to plans after the engine has found them: keeping the actions only, and dropping the
plans that end too early.
-/

namespace Horizon

/-- What the engine reports to hold together, in its order. -/
structure AnswerSet where
  fluents : List Fluent := []
deriving DecidableEq, Repr

/-- The predicate names that count as actions. -/
structure ActionSet where
  names : List Text := []
deriving DecidableEq, Repr

namespace ActionSet

def holds (actions : ActionSet) (f : Fluent) : Bool := actions.names.contains f.name

def isEmpty (actions : ActionSet) : Bool := actions.names.isEmpty

/-- The names in both sets. -/
def inter (a b : ActionSet) : ActionSet := ⟨a.names.filter fun n => b.names.contains n⟩

end ActionSet

namespace AnswerSet

def size (a : AnswerSet) : Nat := a.fluents.length

def isEmpty (a : AnswerSet) : Bool := a.fluents.isEmpty

/-- The latest step any fluent has; 0 if none has one. -/
def maxStep (a : AnswerSet) : Step := (a.fluents.filterMap Fluent.step).foldr max 0

/-- The fluents that are actions. -/
def project (actions : ActionSet) (a : AnswerSet) : AnswerSet :=
  ⟨a.fluents.filter actions.holds⟩

def render (a : AnswerSet) : Text :=
  '\x7b' :: (Text.join ", ".toList (a.fluents.map Fluent.render) ++ ['\x7d'])

/-- Every answer set reduced to its actions. -/
def projectAll (actions : ActionSet) (answers : List AnswerSet) : List AnswerSet :=
  answers.map (project actions)

/-- The answer sets that reach the step `least`. -/
def prune (least : Step) (answers : List AnswerSet) : List AnswerSet :=
  answers.filter fun a => least ≤ a.maxStep

end AnswerSet
end Horizon
