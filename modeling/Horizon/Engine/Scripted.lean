import Horizon.Engine.Request

/-!
An engine that reads its outputs off a list, for trying queries out without a solver. It
keeps every request, and where an output is missing it fails to start.
-/

namespace Horizon

structure Script where
  /-- The outputs still to be given, the next one first. -/
  outputs : List (Option Text) := []
  /-- The requests so far, the latest one first. -/
  requests : List Request := []
deriving DecidableEq, Repr

namespace Engine

def scripted : Engine Script := fun request script =>
  let next : Script := ⟨script.outputs.tail, request :: script.requests⟩
  match script.outputs.head?.join with
  | some text => ⟨.ok ⟨request.label ++ "_output.txt".toList, text⟩, [], next⟩
  | none => ⟨.error (.spawn "clingo".toList .notFound), [], next⟩

end Engine
end Horizon
