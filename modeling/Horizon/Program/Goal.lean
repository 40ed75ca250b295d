import Horizon.Program.Sections
import Horizon.AnswerSet

/-!
Programs about a goal. A plan program checks the goal at the step where the engine sets
its query atom. A monitor program also replays a plan, one action a step, and a
diagnosis program lets the engine give up as much of the believed state as it must to
explain how the plan went.
-/

namespace Horizon
namespace Program

/-- The declaration of the atom under which goals are checked. -/
def declaration (var : Text) : Text := "#external ".toList ++ Rule.query var ++ ".\n".toList

def plan (goal : List Rule) (var : Text) : Text :=
  header "check" var ++ declaration var ++ Rule.goalAll var goal ++ ['\n']

/-- The actions from the step `n` on, one a step, as facts. -/
def replayFrom : Step → List Fluent → List Rule
  | _, [] => []
  | n, f :: fs => Rule.fact (f.moveTo n) :: replayFrom (n + 1) fs

/-- The actions of a plan at the steps 1, 2, …, whatever steps they carry. -/
def replay (plan : AnswerSet) : List Rule := replayFrom 1 plan.fluents

def monitor (goal : List Rule) (actions : AnswerSet) (var : Text) : Text :=
  plan goal var ++ header "step" var ++ Rule.cumulativeAll var (replay actions)

/-- A fluent that the engine may keep or drop. -/
def choice (f : Fluent) : Text := "0\x7b".toList ++ f.render ++ "\x7d1.\n".toList

/-- The cost of keeping a fluent. The fluent itself tells the costs of two fluents apart. -/
def penalty (f : Fluent) : Text :=
  ":~ ".toList ++ f.render ++ ". [1,".toList ++ f.render ++ "]\n".toList

/-- The believed state as choices, each with its penalty. -/
def softState (state : AnswerSet) : Text :=
  baseHeader ++ state.fluents.flatMap choice ++ state.fluents.flatMap penalty

def diagnosis (state actions : AnswerSet) (goal : List Rule) (var : Text) : Text :=
  softState state ++ ['\n'] ++ monitor goal actions var ++ ['\n']

end Program
end Horizon
