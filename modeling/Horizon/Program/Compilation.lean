import Horizon.Program.Goal
import Horizon.Trace

/-!
What there is to compile for a query, with the text it compiles to for a step variable.
Compiling leaves a record at the compile level, which never changes the text.
-/

namespace Horizon

inductive Compilation where
  /-- Rules as a program with a base and a step section. -/
  | program (rules : List Rule)
  /-- Rules at the initial state, without sections. -/
  | state (rules : List Rule)
  | plan (goal : List Rule)
  | monitor (goal : List Rule) (actions : AnswerSet)
  | diagnosis (believed actions : AnswerSet) (goal : List Rule)
deriving DecidableEq

namespace Compilation

/-- The name under which a compilation is recorded. -/
def kind : Compilation → Text
  | .program _ => "program".toList
  | .state _ => "state".toList
  | .plan _ => "plan".toList
  | .monitor _ _ => "monitor".toList
  | .diagnosis _ _ _ => "diagnosis".toList

def text (var : Text) : Compilation → Text
  | .program rules => (Program.ofRules rules).render var
  | .state rules => Rule.fixedAll (some 0) rules
  | .plan goal => Program.plan goal var
  | .monitor goal actions => Program.monitor goal actions var
  | .diagnosis believed actions goal => Program.diagnosis believed actions goal var

/-- Compiles for the step variable `var`. -/
def compile (levels : Levels) (var : Text) (c : Compilation) : Traced Text := do
  Traced.note levels .compile
    ("Compiled ".toList ++ c.kind ++ " query:\n".toList ++ c.text var)
  return c.text var

end Compilation
end Horizon
