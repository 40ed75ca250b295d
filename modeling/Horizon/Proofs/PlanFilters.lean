import Horizon.Proofs.PlanProjection
import Horizon.Proofs.PlanReplay
import Mathlib.Data.List.Basic

/-!
The two filters on plans. Pruning drops whole answer sets and projecting drops fluents of each, so
neither changes an order, and each done twice is one filter of its kind. They do not commute: an
answer set may lose its latest steps when it is reduced to its actions, and then only pruning first
keeps it. Where an action stands at the latest step of every answer set, the order is the same.
-/

namespace Horizon

theorem Step.max_le_iff {k m n : Step} : max m n ≤ k ↔ m ≤ k ∧ n ≤ k := by
  simp only [UInt32.le_iff_toNat_le, Step.toNat_max, Nat.max_le]

theorem ActionSet.mem_names_inter (a b : ActionSet) (n : Text) :
    n ∈ (a.inter b).names ↔ n ∈ a.names ∧ n ∈ b.names := by
  simp [inter]

namespace AnswerSet

variable {actions : ActionSet} {a : AnswerSet} {answers : List AnswerSet} {m n : Step}

/-! Pruning. -/

theorem mem_prune_iff : a ∈ prune m answers ↔ a ∈ answers ∧ m ≤ a.maxStep := by
  simp [prune]

theorem prune_sublist (m : Step) (answers : List AnswerSet) :
    (prune m answers).Sublist answers :=
  List.filter_sublist

theorem prune_prune (m n : Step) (answers : List AnswerSet) :
    prune n (prune m answers) = prune (max m n) answers := by
  simp only [prune, List.filter_filter, Step.max_le_iff, Bool.decide_and, Bool.and_comm]

/-! Projecting. -/

theorem mem_fluents_project_iff {f : Fluent} :
    f ∈ (a.project actions).fluents ↔ f ∈ a.fluents ∧ f.name ∈ actions.names := by
  simp [project_eq_actionPart, actionPart]

theorem project_sublist (actions : ActionSet) (a : AnswerSet) :
    (a.project actions).fluents.Sublist a.fluents :=
  List.filter_sublist

theorem project_project (first second : ActionSet) (a : AnswerSet) :
    (a.project first).project second = a.project (first.inter second) := by
  simp only [project_eq_actionPart, actionPart, List.filter_filter, ActionSet.mem_names_inter,
    Bool.decide_and, Bool.and_comm]

theorem projectAll_projectAll (first second : ActionSet) (answers : List AnswerSet) :
    projectAll second (projectAll first answers) = projectAll (first.inter second) answers := by
  simp only [projectAll, List.map_map, Function.comp_def, project_project]

theorem getElem?_projectAll (actions : ActionSet) (answers : List AnswerSet) (i : Nat) :
    (projectAll actions answers)[i]? = answers[i]?.map (project actions) :=
  List.getElem?_map

/-! The latest step. -/

theorem maxStep_le_iff : a.maxStep ≤ n ↔ ∀ f ∈ a.fluents, ∀ m, f.step = some m → m ≤ n := by
  constructor
  · intro h f hf m hm
    rw [UInt32.le_iff_toNat_le] at h ⊢
    exact Nat.le_trans (le_maxStep_of_mem hf hm) h
  · intro h
    have bounded : ∀ m ∈ a.fluents.filterMap Fluent.step, m ≤ n := by
      intro m hm
      obtain ⟨f, hf, hstep⟩ := List.mem_filterMap.mp hm
      exact h f hf m hstep
    unfold maxStep
    generalize a.fluents.filterMap Fluent.step = steps at bounded ⊢
    induction steps with
    | nil => exact UInt32.le_iff_toNat_le.mpr (Nat.zero_le _)
    | cons m steps ih =>
        rw [List.foldr_cons, Step.max_le_iff]
        exact ⟨bounded m List.mem_cons_self, ih fun k hk => bounded k (List.mem_cons_of_mem m hk)⟩

theorem maxStep_project_le (actions : ActionSet) (a : AnswerSet) :
    (a.project actions).maxStep ≤ a.maxStep := by
  rw [maxStep_le_iff]
  intro f hf m hm
  exact maxStep_le_iff.mp (UInt32.le_refl _) f (mem_fluents_project_iff.mp hf).1 m hm

/-- An action stands at the latest step of the answer set. -/
def EndsInAction (actions : ActionSet) (a : AnswerSet) : Prop :=
  ∃ f ∈ a.fluents, f.name ∈ actions.names ∧ f.step = some a.maxStep

theorem EndsInAction.maxStep_project (h : EndsInAction actions a) :
    (a.project actions).maxStep = a.maxStep := by
  obtain ⟨f, hf, hname, hstep⟩ := h
  refine UInt32.le_antisymm (maxStep_project_le actions a) ?_
  exact maxStep_le_iff.mp (UInt32.le_refl _) f (mem_fluents_project_iff.mpr ⟨hf, hname⟩) _ hstep

/-! Both filters. -/

/-- Pruning after the projection is pruning by the steps that the actions have. -/
theorem prune_projectAll (actions : ActionSet) (m : Step) (answers : List AnswerSet) :
    prune m (projectAll actions answers) =
      projectAll actions (answers.filter fun a => m ≤ (a.project actions).maxStep) :=
  List.filter_map

theorem filter_project_sublist_prune (actions : ActionSet) (m : Step) (answers : List AnswerSet) :
    (answers.filter fun a => m ≤ (a.project actions).maxStep).Sublist (prune m answers) := by
  refine List.monotone_filter_right answers fun a h => ?_
  rw [decide_eq_true_eq] at h ⊢
  exact UInt32.le_trans h (maxStep_project_le actions a)

theorem prune_projectAll_sublist (actions : ActionSet) (m : Step) (answers : List AnswerSet) :
    (prune m (projectAll actions answers)).Sublist (projectAll actions (prune m answers)) := by
  rw [prune_projectAll]
  exact (filter_project_sublist_prune actions m answers).map _

/-- The filters commute exactly if the actions of every answer set that is long enough are. -/
theorem prune_projectAll_comm_iff :
    prune m (projectAll actions answers) = projectAll actions (prune m answers) ↔
      ∀ a ∈ answers, m ≤ a.maxStep → m ≤ (a.project actions).maxStep := by
  rw [prune_projectAll]
  constructor
  · intro h
    -- A sublist of the same length is the whole list, so nothing that is long enough was dropped.
    have length := congrArg List.length h
    simp only [projectAll, List.length_map] at length
    have same := (filter_project_sublist_prune actions m answers).eq_of_length length
    intro a ha hm
    have kept : a ∈ answers.filter fun a => m ≤ (a.project actions).maxStep := by
      rw [same]
      exact mem_prune_iff.mpr ⟨ha, hm⟩
    simpa using (List.mem_filter.mp kept).2
  · intro h
    refine congrArg (projectAll actions) (List.filter_congr fun a ha => ?_)
    rw [decide_eq_decide]
    exact ⟨fun hm => UInt32.le_trans hm (maxStep_project_le actions a), h a ha⟩

/-- What the filters do to any list of answer sets. Pruning keeps the order of the answer sets, and
projecting that of the fluents in each of them. Pruned twice, a list is pruned by the larger bound;
projected twice, it is projected to the actions of both. No projection makes an answer set longer.
Projecting first leaves a part of what pruning first leaves, in the same order, and all of it if
every answer set ends in an action. -/
theorem filter_laws (answers : List AnswerSet) (first second : ActionSet) (m n : Step) :
    ((prune m answers).Sublist answers ∧
      ∀ a, a ∈ prune m answers ↔ a ∈ answers ∧ m ≤ a.maxStep) ∧
    ((projectAll first answers).length = answers.length ∧
      (∀ i : Nat, (projectAll first answers)[i]? = answers[i]?.map (project first)) ∧
      ∀ a, (project first a).fluents.Sublist a.fluents ∧
        ∀ f, f ∈ (project first a).fluents ↔ f ∈ a.fluents ∧ f.name ∈ first.names) ∧
    prune n (prune m answers) = prune (max m n) answers ∧
    (projectAll second (projectAll first answers) = projectAll (first.inter second) answers ∧
      ∀ name, name ∈ (first.inter second).names ↔ name ∈ first.names ∧ name ∈ second.names) ∧
    (∀ a, (project first a).maxStep ≤ a.maxStep) ∧
    (prune m (projectAll first answers)).Sublist (projectAll first (prune m answers)) ∧
    ((∀ a ∈ answers, EndsInAction first a) →
      prune m (projectAll first answers) = projectAll first (prune m answers)) := by
  refine ⟨⟨prune_sublist m answers, fun a => mem_prune_iff⟩,
    ⟨List.length_map _, getElem?_projectAll first answers,
      fun a => ⟨project_sublist first a, fun f => mem_fluents_project_iff⟩⟩,
    prune_prune m n answers,
    ⟨projectAll_projectAll first second answers, first.mem_names_inter second⟩,
    maxStep_project_le first, prune_projectAll_sublist first m answers, ?_⟩
  intro h
  rw [prune_projectAll_comm_iff]
  intro a ha hm
  rwa [(h a ha).maxStep_project]

/-- A plan that reaches step 2 with its action, and one that is over at step 1. -/
def endedPlans : List AnswerSet :=
  [⟨[⟨⟨"at".toList, []⟩, some 1⟩, ⟨⟨"go".toList, []⟩, some 2⟩, ⟨⟨"at".toList, []⟩, none⟩]⟩,
    ⟨[⟨⟨"go".toList, []⟩, some 1⟩]⟩]

theorem filter_laws_endedPlans :
    (∀ a ∈ endedPlans, EndsInAction ⟨["go".toList]⟩ a) ∧
    prune 2 (projectAll ⟨["go".toList]⟩ endedPlans) =
      projectAll ⟨["go".toList]⟩ (prune 2 endedPlans) ∧
    projectAll ⟨["go".toList]⟩ (prune 2 endedPlans) = [⟨[⟨⟨"go".toList, []⟩, some 2⟩]⟩] := by
  have ended : ∀ a ∈ endedPlans, EndsInAction ⟨["go".toList]⟩ a := by
    unfold EndsInAction
    decide
  obtain ⟨-, -, -, -, -, -, comm⟩ := filter_laws endedPlans ⟨["go".toList]⟩ {} 2 0
  exact ⟨ended, comm ended, by decide⟩

end AnswerSet
end Horizon
