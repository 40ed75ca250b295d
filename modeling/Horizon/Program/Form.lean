import Horizon.Rule

/-!
The three textual forms of a rule. The fixed form pins every fluent to one step. The
cumulative form puts the step variable in the head and guards the rule with the step it
was written for. The goal form puts the variable in the body, where the engine's query
atom decides at which step it is checked.
-/

namespace Horizon
namespace Rule

def separated (sep : String) (render : Fluent → Text) (fluents : List Fluent) : Text :=
  Text.join sep.toList (fluents.map render)

/-- The end of every statement. -/
def stop : Text := ".\n".toList

/-- Every fluent at the given step, or at its own step if none is given. The empty rule
has no text. -/
def fixed (step : Option Step) (r : Rule) : Text :=
  if r.isEmpty then []
  else
    let render := fun f : Fluent =>
      match step with
      | some n => f.renderAt (Numeral.write n.toNat)
      | none => f.render
    separated " | " render r.head ++
      (if r.body.isEmpty then [] else ":- ".toList ++ separated ", " render r.body) ++ stop

/-- The step that guards the cumulative form: the latest one in the head. -/
def guardStep (r : Rule) : Step := (r.head.filterMap Fluent.step).foldr max 0

/-- The condition that the step variable has reached the rule's step. -/
def guard (var : Text) (r : Rule) : Text := var ++ '=' :: Numeral.write r.guardStep.toNat

/-- The head at the step variable, the body at its own steps, and the guard if there is a
head. The empty rule has no text. -/
def cumulative (var : Text) (r : Rule) : Text :=
  if r.isEmpty then []
  else
    separated " | " (Fluent.renderAt · var) r.head ++ ":- ".toList ++
      separated ", " Fluent.render r.body ++
      (if r.head.isEmpty then []
       else (if r.body.isEmpty then [] else ", ".toList) ++ r.guard var) ++ stop

/-- The atom that the engine makes true at the step where goals are checked. -/
def query (var : Text) : Text := "query(".toList ++ var ++ ")".toList

/-- The head at its own steps and the body at the step variable, together with the query
atom if there is a body. -/
def goal (var : Text) (r : Rule) : Text :=
  separated " | " Fluent.render r.head ++
    (if r.body.isEmpty then []
     else ":- ".toList ++ separated ", " (Fluent.renderAt · var) r.body ++ ", ".toList ++
       query var) ++ stop

def fixedAll (step : Option Step) (rules : List Rule) : Text := rules.flatMap (fixed step)

def cumulativeAll (var : Text) (rules : List Rule) : Text := rules.flatMap (cumulative var)

def goalAll (var : Text) (rules : List Rule) : Text := rules.flatMap (goal var)

end Rule
end Horizon
