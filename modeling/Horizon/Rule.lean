import Horizon.Fluent

/-!
Rules: a disjunction of fluents in the head that follows from the fluents of the body.
The head fluents of a rule agree on their time step, so the rule has one step of its
own; `Rule.of` is the place where this is checked.
-/

namespace Horizon

structure Rule where
  head : List Fluent
  body : List Fluent
  agree : ∀ f ∈ head, ∀ g ∈ head, f.step = g.step
deriving DecidableEq

/-- The step of the first head fluent and the first step that differs from it. -/
structure MixedSteps where
  first : Option Step
  other : Option Step
deriving DecidableEq, Repr

namespace MixedSteps

def describe : Option Step → Text
  | some n => "Some(".toList ++ Numeral.write n.toNat ++ ")".toList
  | none => "None".toList

def message (e : MixedSteps) : Text :=
  "head fluents disagree on their time step: ".toList ++ describe e.first ++ " vs. ".toList ++
    describe e.other

end MixedSteps

namespace Rule

/-- The first disagreement of a head, looked for from its first fluent on. -/
def disagreement? : List Fluent → Option MixedSteps
  | [] => none
  | f :: fs => (fs.find? fun g => g.step ≠ f.step).map fun g => ⟨f.step, g.step⟩

theorem agree_of_disagreement?_eq_none {head : List Fluent} (h : disagreement? head = none) :
    ∀ f ∈ head, ∀ g ∈ head, f.step = g.step := by
  cases head with
  | nil => intro f hf; cases hf
  | cons e es =>
      have same : ∀ f ∈ e :: es, f.step = e.step := by
        intro f hf
        cases hf with
        | head => rfl
        | tail _ hf =>
            simp only [disagreement?, Option.map_eq_none_iff, List.find?_eq_none] at h
            simpa using h f hf
      intro f hf g hg
      rw [same f hf, same g hg]

/-- A rule of the given head and body, if the head agrees on its step. -/
def of (head body : List Fluent) : Except MixedSteps Rule :=
  match h : disagreement? head with
  | some e => .error e
  | none => .ok ⟨head, body, agree_of_disagreement?_eq_none h⟩

def empty : Rule := ⟨[], [], by simp⟩

def fact (f : Fluent) : Rule := ⟨[f], [], by simp⟩

def constraint (body : List Fluent) : Rule := ⟨[], body, by simp⟩

def isEmpty (r : Rule) : Bool := r.head.isEmpty && r.body.isEmpty

/-- The step on which the head fluents agree. -/
def headStep (r : Rule) : Option Step := r.head.head?.bind Fluent.step

/-- Whether the rule speaks of the initial state. -/
def isInitial (r : Rule) : Bool := r.headStep == some 0

end Rule
end Horizon
