import Horizon.Text.Basic

/-!
Atoms: a predicate name applied to arguments. An argument is kept as the text of a
term; the library never looks inside it.
-/

namespace Horizon

structure Atom where
  name : Text
  arguments : List Text := []
deriving DecidableEq, Repr

namespace Atom

/-- A name applied to parts: the bare name if there are none. -/
def application (name : Text) (parts : List Text) : Text :=
  if parts.isEmpty then name else name ++ '(' :: (Text.join [','] parts ++ [')'])

def render (a : Atom) : Text := application a.name a.arguments

def arity (a : Atom) : Nat := a.arguments.length

/-- Orders atoms by name, then by their argument lists. -/
def compare (a b : Atom) : Ordering :=
  (Text.compare a.name b.name).then (List.compareLex Text.compare a.arguments b.arguments)

end Atom
end Horizon
