import Horizon.Program.Compilation
import Horizon.Engine.Request
import Horizon.Output.Reading

/-!
The questions a reasoner answers and the replies to them. Every question asks the engine
exactly once: it is made into a request, and the captured output is read into a reply.
-/

namespace Horizon

inductive Query where
  /-- Answer sets of a given program over a range of steps. -/
  | program (text : Text) (initialStep finalStep : Step) (label : Text) (answers : UInt32)
      (useCopyFiles : Bool)
  /-- Answer sets of rules at one step. -/
  | rules (rules : List Rule) (step : Step) (label : Text) (answers : UInt32)
  /-- Answers of a given program as plain atoms. -/
  | atoms (text : Text) (step : Step) (label : Text) (answers : UInt32)
  /-- The initial state that rules describe. -/
  | currentState (rules : List Rule)
  /-- Shortest plans for a goal. -/
  | minimalPlan (goal : List Rule) (actionsOnly : Bool) (maxLength : Step) (answers : UInt32)
  /-- Plans for a goal whose length lies in a range. -/
  | planInRange (goal : List Rule) (actionsOnly : Bool) (minLength maxLength : Step)
      (answers : UInt32)
  /-- The cheapest or dearest plan for a goal. -/
  | optimalPlan (goal : List Rule) (actionsOnly : Bool) (maxLength : Step) (answers : UInt32)
      (direction : Direction)
  /-- How a plan can go and reach the goal. -/
  | monitor (goal : List Rule) (plan : AnswerSet)
  /-- Whether a plan can reach the goal. -/
  | isPlanValid (goal : List Rule) (plan : AnswerSet)
  /-- The part of a believed state that explains how a plan went. -/
  | filtering (state plan : AnswerSet) (goal : List Rule)
  /-- The answer set of least cost of a given program. -/
  | optimization (text : Text) (label : Text)
deriving DecidableEq

inductive Reply where
  | answerSets (answers : List AnswerSet)
  | atomGroups (groups : List (List Atom))
  | answerSet (answer : AnswerSet)
  | verdict (valid : Bool)
deriving DecidableEq, Repr

namespace Query

/-- All answers of a given program at one step, as plain atoms. -/
def plain (text : Text) (step : Step) : Query := .atoms text step "query".toList 0

def planLabel : Text := "planQuery".toList

def stateLabel : Text := "stateQuery".toList

def monitorLabel : Text := "monitorQuery".toList

def filterLabel : Text := "filterState".toList

end Query
end Horizon
