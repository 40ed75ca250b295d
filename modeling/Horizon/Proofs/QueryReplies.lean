import Horizon.Query.Reasoner

/-!
One query to an engine. The request is made before the engine is asked, and the reply is read
from its output alone. So two queries for which the same is asked, and whose replies to every
output are related by a function, end in the same way and leave the engine in the same state.
-/

namespace Horizon

namespace Traced

variable {α β : Type}

@[ext] theorem ext {x y : Traced α} (value : x.value = y.value)
    (records : x.records = y.records) : x = y := by
  cases x
  cases y
  simp only at value records
  rw [value, records]

instance : LawfulMonad Traced :=
  LawfulMonad.mk' Traced
    (fun _ => ext rfl (List.append_nil _))
    (fun _ _ => ext rfl (List.nil_append _))
    (fun _ _ _ => ext rfl (List.append_assoc _ _ _))

@[simp] theorem value_map (f : α → β) (x : Traced α) : (f <$> x).value = f x.value := rfl

@[simp] theorem records_map (f : α → β) (x : Traced α) : (f <$> x).records = x.records :=
  List.append_nil _

end Traced

/-- The outcome with a function applied to its result. -/
def Outcome.map {σ α β : Type} (f : α → β) (o : Outcome σ α) : Outcome σ β :=
  ⟨o.result.map f, o.records, o.state⟩

theorem Outcome.map_id {σ α : Type} (o : Outcome σ α) : o.map id = o := by
  cases o with
  | mk result records state => cases result <;> rfl

namespace Reasoner

variable {σ : Type}

/-- The reply is read from what the engine gives for the request; an engine that fails is
the only error. -/
theorem result_ask (r : Reasoner) (engine : Engine σ) (q : Query) (s : σ) :
    (r.ask engine q s).result =
      (engine (r.request q).value s).result.map fun t => (r.reply t.text q).value := by
  simp only [ask]
  cases (engine (r.request q).value s).result <;> rfl

/-- A query is answered like another one up to a function, if the same is asked for it and the
function gives its reply to every output. -/
theorem ask_eq_map {r r' : Reasoner} {q q' : Query} {f : Reply → Reply}
    (levels : r'.levels = r.levels) (request : r'.request q' = r.request q)
    (reply : ∀ text, r'.reply text q' = f <$> r.reply text q) (engine : Engine σ) (s : σ) :
    r'.ask engine q' s = (r.ask engine q s).map f := by
  simp only [ask, levels, request]
  cases (engine (r.request q).value s).result with
  | error e => rfl
  | ok t => simp [reply, Outcome.map, Except.map]

end Reasoner
end Horizon
