import Horizon.Program.Form

/-!
Incremental programs: a base section for what holds at the initial state, and a step
section that the engine grounds again for every increment of its step variable.
-/

namespace Horizon

structure Program where
  base : List Rule := []
  step : List Rule := []
deriving DecidableEq

namespace Program

/-- Rules whose heads speak of the initial state go to the base section, all others to
the step section, each in the given order. -/
def ofRules (rules : List Rule) : Program :=
  let sections := rules.partition Rule.isInitial
  ⟨sections.1, sections.2⟩

def size (p : Program) : Nat := p.base.length + p.step.length

def isEmpty (p : Program) : Bool := p.size == 0

def baseHeader : Text := "#program base.\n".toList

/-- The header of a section that depends on the step variable. -/
def header (name : String) (var : Text) : Text :=
  "#program ".toList ++ name.toList ++ '(' :: (var ++ ").\n".toList)

def render (var : Text) (p : Program) : Text :=
  baseHeader ++ Rule.fixedAll (some 0) p.base ++ ['\n'] ++ header "step" var ++
    Rule.cumulativeAll var p.step ++ ['\n']

end Program
end Horizon
