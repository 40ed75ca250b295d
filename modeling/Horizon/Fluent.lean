import Horizon.Atom.Reader
import Horizon.Text.Numeral

/-!
Fluents: atoms that hold at a time step. The step is written as one more argument, the
last one, so a fluent is read from an atom whose last argument is a numeral.
-/

namespace Horizon

/-- Time steps count from the initial state, which is step 0. -/
abbrev Step := UInt32

structure Fluent where
  atom : Atom
  step : Option Step := none
deriving DecidableEq, Repr

namespace Fluent

def name (f : Fluent) : Text := f.atom.name

/-- The same atom at another step. -/
def moveTo (f : Fluent) (step : Step) : Fluent := { f with step := some step }

/-- The fluent with a given text in the place of its step. -/
def renderAt (f : Fluent) (step : Text) : Text :=
  Atom.application f.atom.name (f.atom.arguments ++ [step])

def render (f : Fluent) : Text :=
  match f.step with
  | some n => f.renderAt (Numeral.write n.toNat)
  | none => f.atom.render

/-- Orders fluents by atom, then by step; an unset step comes first. -/
def compare (f g : Fluent) : Ordering :=
  (f.atom.compare g.atom).then (Ord.compare f.step g.step)

/-- Splits the step off an atom whose last argument is a 32-bit numeral. -/
def ofAtom? (a : Atom) : Option Fluent :=
  match a.arguments.getLast? with
  | none => none
  | some last =>
      match Numeral.read32 last with
      | .ok n => some ⟨{ a with arguments := a.arguments.dropLast }, some n⟩
      | .error _ => none

def read (s : Text) : Except ReadError Fluent :=
  match Atom.read s with
  | .error e => .error e
  | .ok a =>
      match ofAtom? a with
      | some f => .ok f
      | none => .error (.missingTimeStep s)

end Fluent
end Horizon
