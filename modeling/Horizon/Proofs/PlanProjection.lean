import Horizon.Proofs.QueryReplies

/-!
Plans reduced to their actions. Whether a query for plans wants the actions only is looked at
last, when the plans have been read, pruned or chosen. So the engine is asked the same, as many
plans come back in the same order, and each of them is the whole plan without its other fluents.
-/

namespace Horizon

/-- The fluents whose predicates are actions, in the order of the answer set. -/
def AnswerSet.actionPart (actions : ActionSet) (a : AnswerSet) : AnswerSet :=
  ⟨a.fluents.filter fun f => f.name ∈ actions.names⟩

theorem AnswerSet.project_eq_actionPart (actions : ActionSet) :
    AnswerSet.project actions = AnswerSet.actionPart actions := by
  have holds : actions.holds = fun f => decide (f.name ∈ actions.names) := by
    funext f
    exact List.contains_eq_mem f.name actions.names
  funext a
  rw [project, holds, actionPart]

/-- The reply with every plan in it reduced to its actions. -/
def Reply.actionPart (actions : ActionSet) : Reply → Reply
  | .answerSets plans => .answerSets (plans.map (AnswerSet.actionPart actions))
  | .answerSet plan => .answerSet (plan.actionPart actions)
  | .atomGroups groups => .atomGroups groups
  | .verdict valid => .verdict valid

namespace Reasoner

/-- A query for plans with and without all their fluents, which the engine answers alike. What
is found in the output is the reply to the query for whole plans, and the other reply is made
from it. -/
structure OnlyProjects {σ : Type} (r : Reasoner) (engine : Engine σ) (s : σ)
    (query : (actionsOnly : Bool) → Query) (found : Text → Reply) : Prop where
  request : r.request (query true) = r.request (query false)
  whole : (r.ask engine (query false) s).result =
    (engine (r.request (query false)).value s).result.map fun t => found t.text
  actions : (r.ask engine (query true) s).result =
    (r.ask engine (query false) s).result.map (Reply.actionPart r.actions)
  state : (r.ask engine (query true) s).state = (r.ask engine (query false) s).state

theorem onlyProjects_of_reply {r : Reasoner} {query : Bool → Query} {found : Text → Reply}
    (request : r.request (query true) = r.request (query false))
    (whole : ∀ text, (r.reply text (query false)).value = found text)
    (actions : ∀ text, r.reply text (query true) =
      Reply.actionPart r.actions <$> r.reply text (query false))
    {σ : Type} (engine : Engine σ) (s : σ) : r.OnlyProjects engine s query found := by
  have projected : r.ask engine (query true) s =
      (r.ask engine (query false) s).map (Reply.actionPart r.actions) :=
    ask_eq_map rfl request actions engine s
  refine ⟨request, ?_, ?_, ?_⟩
  · rw [result_ask]
    simp only [whole]
  · rw [projected]
    rfl
  · rw [projected]
    rfl

/-- Reducing the plans that are read is the last thing that is done with them. -/
theorem projected_true (r : Reasoner) (plans : List AnswerSet) :
    Reply.answerSets (r.projected true plans) =
      Reply.actionPart r.actions (.answerSets (r.projected false plans)) := by
  simp [projected, Reply.actionPart, AnswerSet.projectAll, AnswerSet.project_eq_actionPart]

/-- Asking for the actions only changes nothing but the plans that come back, for every goal,
engine and set of actions. Plans are pruned by the steps of all their fluents, and the plan of
best cost is chosen among whole plans. -/
theorem plans_only_projected {σ : Type} (r : Reasoner) (engine : Engine σ) (s : σ)
    (goal : List Rule) (minLength maxLength : Step) (answers : UInt32) (direction : Direction) :
    let sets := fun text => (Reading.answerSets .discard r.levels text).value
    r.OnlyProjects engine s (fun b => .minimalPlan goal b maxLength answers)
      (fun text => .answerSets (sets text)) ∧
    r.OnlyProjects engine s (fun b => .planInRange goal b minLength maxLength answers)
      (fun text => .answerSets ((sets text).filter fun a => minLength ≤ a.maxStep)) ∧
    r.OnlyProjects engine s (fun b => .optimalPlan goal b maxLength answers direction)
      (fun text => .answerSet (Reading.optimal direction r.levels text).value) := by
  intro sets
  refine ⟨?_, ?_, ?_⟩
  · apply onlyProjects_of_reply rfl (fun _ => rfl)
    intro text
    simp only [reply, projected_true, map_bind, map_pure]
  · apply onlyProjects_of_reply rfl (fun _ => rfl)
    intro text
    simp only [reply, projected_true, map_bind, map_pure]
  · apply onlyProjects_of_reply rfl (fun _ => rfl)
    intro text
    simp [reply, Reply.actionPart, AnswerSet.project_eq_actionPart]

end Reasoner

/-- A plan whose last action is at step 1 and that reaches step 2 all the same. -/
def outlastedPlan : AnswerSet :=
  ⟨[⟨⟨"go".toList, []⟩, some 1⟩, ⟨⟨"at".toList, []⟩, some 2⟩]⟩

example :
    AnswerSet.projectAll ⟨["go".toList]⟩ (AnswerSet.prune 2 [outlastedPlan]) =
      [⟨[⟨⟨"go".toList, []⟩, some 1⟩]⟩] ∧
    AnswerSet.prune 2 (AnswerSet.projectAll ⟨["go".toList]⟩ [outlastedPlan]) = [] := by
  decide

end Horizon
