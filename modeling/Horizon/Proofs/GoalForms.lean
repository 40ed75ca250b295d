import Horizon.Program.Goal
import Horizon.Proofs.FixedForms
import Horizon.Proofs.RuleSteps

/-!
What the text of a goal tells about time steps. The body is written at the step variable, so its
steps leave no trace. The head is written at its own step, and where the atoms are known this step
can be told from the text, because the first atom ends with it. The programs that are compiled for
a goal tell as much as the goal itself.
-/

namespace Horizon

namespace Atom

theorem renderWith_eq (extra : Text) (a : Atom) :
    a.renderWith extra = a.name ++ '(' :: (Text.join [','] a.arguments ++
      (if a.arguments.isEmpty then [] else [',']) ++ extra ++ [')']) := by
  simp [renderWith, application, Text.join_concat]

/-- An atom goes on otherwise where it ends than where one argument more follows. -/
theorem render_append_ne {a : Atom} {extra u v : Text} (hu : Text.StopsAt (· == '(') u) :
    a.render ++ u ≠ a.renderWith extra ++ v := by
  intro heq
  rw [renderWith_eq, render, application] at heq
  cases hargs : a.arguments with
  | nil =>
      simp [hargs] at heq
      simp [heq] at hu
  | cons t ts => simp [hargs] at heq

end Atom

namespace Fluent

/-- The text of a fluent tells its step where the atom is known. -/
theorem step_of_render_append {a : Atom} {m n : Option Step} {u v : Text}
    (hu : Text.StopsAt (· == '(') u) (hv : Text.StopsAt (· == '(') v)
    (h : render ⟨a, m⟩ ++ u = render ⟨a, n⟩ ++ v) : m = n := by
  cases m with
  | none =>
      cases n with
      | none => rfl
      | some n => exact absurd h (Atom.render_append_ne hu)
  | some m =>
      cases n with
      | none => exact absurd h.symm (Atom.render_append_ne hv)
      | some n =>
          have hsteps : a.renderWith (Numeral.write m.toNat) ++ u =
              a.renderWith (Numeral.write n.toNat) ++ v := h
          simp only [Atom.renderWith_eq, List.append_assoc, List.cons_append,
            List.append_cancel_left_eq, List.cons.injEq, true_and, List.nil_append] at hsteps
          have hnumbers := Numeral.write_append_inj (by simp) (by simp) hsteps
          exact congrArg some (UInt32.toNat.inj hnumbers)

end Fluent

namespace Rule

variable {var : Text} {r s : Rule}

/-- What comes after the head of a goal. -/
def goalTail (var : Text) (body : List Atom) : Text :=
  (if body.isEmpty then []
   else ":- ".toList ++ Text.join ", ".toList (body.map (Atom.renderWith var)) ++ ", ".toList ++
     query var) ++ stop

/-- A goal is the atoms of its head at their common step and the atoms of its body at the
variable. -/
theorem goal_eq (var : Text) (r : Rule) :
    r.goal var =
      Text.join " | ".toList (r.skeleton.1.map fun a => Fluent.render ⟨a, r.headStep⟩) ++
        goalTail var r.skeleton.2 := by
  have head : r.head.map Fluent.render =
      (r.head.map Fluent.atom).map fun a => Fluent.render ⟨a, r.headStep⟩ := by
    rw [List.map_map]
    apply List.map_congr_left
    intro f hf
    rw [Function.comp_apply, ← step_eq_headStep hf]
  have body : r.body.map (Fluent.renderAt · var) =
      (r.body.map Fluent.atom).map (Atom.renderWith var) := by
    rw [List.map_map]
    rfl
  simp [goal, separated, head, body, skeleton, goalTail]

theorem stopsAt_goalTail (body : List Atom) (u : Text) :
    Text.StopsAt (· == '(') (goalTail var body ++ u) := by
  cases body with
  | nil => simp [goalTail, stop]
  | cons a as => simp [goalTail]

theorem headStep_eq_none (h : r.skeleton.1 = []) : r.headStep = none := by
  have hnil : r.head = [] := List.map_eq_nil_iff.mp h
  rw [headStep, hnil]
  rfl

/-- The first atom of the head ends with the step of the head. -/
theorem headStep_of_goal_append (same : r.skeleton = s.skeleton) {u v : Text}
    (h : r.goal var ++ u = s.goal var ++ v) : r.headStep = s.headStep := by
  rw [goal_eq, goal_eq, ← same] at h
  cases hhead : r.skeleton.1 with
  | nil => rw [headStep_eq_none hhead, headStep_eq_none (same ▸ hhead)]
  | cons a as =>
      have ends : ∀ (step : Option Step) (w : Text), Text.StopsAt (· == '(')
          (as.flatMap (fun b => " | ".toList ++ Fluent.render ⟨b, step⟩) ++
            (goalTail var r.skeleton.2 ++ w)) := by
        intro step w
        cases as with
        | nil => exact stopsAt_goalTail _ _
        | cons b bs => simp
      rw [hhead] at h
      simp only [List.map_cons, Text.join_cons, List.flatMap_map, List.append_assoc] at h
      exact Fluent.step_of_render_append (ends _ _) (ends _ _) h

theorem goal_congr (same : r.skeleton = s.skeleton) (step : r.headStep = s.headStep) :
    r.goal var = s.goal var := by
  rw [goal_eq, goal_eq, same, step]

theorem goal_eq_iff (same : r.skeleton = s.skeleton) :
    r.goal var = s.goal var ↔ r.headStep = s.headStep :=
  ⟨fun h => headStep_of_goal_append same (congrArg (· ++ []) h), goal_congr same⟩

theorem goalAll_eq_iff {rules others : List Rule}
    (same : rules.map skeleton = others.map skeleton) :
    goalAll var rules = goalAll var others ↔ rules.map headStep = others.map headStep := by
  induction rules generalizing others with
  | nil =>
      rw [List.map_nil, eq_comm, List.map_eq_nil_iff] at same
      simp [same]
  | cons r rules ih =>
      cases others with
      | nil => cases same
      | cons s others =>
          simp only [List.map_cons, List.cons.injEq] at same ⊢
          obtain ⟨hrule, hrules⟩ := same
          rw [goalAll, goalAll, List.flatMap_cons, List.flatMap_cons, ← goalAll, ← goalAll,
            ← ih hrules]
          constructor
          · intro h
            have step := headStep_of_goal_append hrule h
            rw [goal_congr hrule step] at h
            exact ⟨step, List.append_cancel_left h⟩
          · rintro ⟨step, h⟩
            rw [goal_congr hrule step, h]

end Rule

namespace Program

open Rule

/-- Two rules of the same atoms are written alike as goals exactly if their heads are at the same
step. So are the programs that are compiled for two goals of the same atoms, rule by rule, in
planning, monitoring and diagnosis. The steps of the bodies make no difference, and those of the
heads always do. -/
theorem goal_tells_headSteps (var : Text) :
    (∀ r s : Rule, r.skeleton = s.skeleton →
      (r.goal var = s.goal var ↔ r.headStep = s.headStep)) ∧
    ∀ goal other : List Rule, goal.map skeleton = other.map skeleton →
      let alike := goal.map headStep = other.map headStep
      (plan goal var = plan other var ↔ alike) ∧
      (∀ actions, monitor goal actions var = monitor other actions var ↔ alike) ∧
      (∀ state actions, diagnosis state actions goal var = diagnosis state actions other var ↔
        alike) := by
  refine ⟨fun r s same => goal_eq_iff same, ?_⟩
  intro goal other same alike
  have goals : goalAll var goal = goalAll var other ↔ alike := goalAll_eq_iff same
  have plans : plan goal var = plan other var ↔ alike := by
    rw [← goals, plan, plan, List.append_left_inj, List.append_right_inj]
  have monitors : ∀ actions, monitor goal actions var = monitor other actions var ↔ alike := by
    intro actions
    rw [← plans, monitor, monitor, List.append_left_inj, List.append_left_inj]
  refine ⟨plans, monitors, ?_⟩
  intro state actions
  rw [← monitors actions, diagnosis, diagnosis, List.append_left_inj, List.append_right_inj]

/-- Constraints have no head, so it does not matter which steps a goal of constraints carries. -/
theorem goal_tells_headSteps_constraint :
    let goal := [constraint [⟨⟨"at".toList, ["a".toList]⟩, some 3⟩]]
    let other := [constraint [⟨⟨"at".toList, ["a".toList]⟩, none⟩]]
    goal.map skeleton = other.map skeleton ∧ goal.map headStep = other.map headStep ∧
    diagnosis {} {} goal ['n'] = diagnosis {} {} other ['n'] := by
  intro goal other
  have same : goal.map skeleton = other.map skeleton := rfl
  have steps : goal.map headStep = other.map headStep := rfl
  obtain ⟨-, -, diagnoses⟩ := (goal_tells_headSteps ['n']).2 goal other same
  exact ⟨same, steps, (diagnoses {} {}).mpr steps⟩

/-- A head at a step is written with it, and the programs differ from those of a head without. -/
theorem goal_tells_headSteps_done :
    let timed := fact ⟨⟨"done".toList, []⟩, some 3⟩
    let untimed := fact ⟨⟨"done".toList, []⟩, none⟩
    timed.skeleton = untimed.skeleton ∧
    timed.goal ['n'] = "done(3).\n".toList ∧ untimed.goal ['n'] = "done.\n".toList ∧
    plan [timed] ['n'] ≠ plan [untimed] ['n'] ∧
    monitor [timed] {} ['n'] ≠ monitor [untimed] {} ['n'] ∧
    diagnosis {} {} [timed] ['n'] ≠ diagnosis {} {} [untimed] ['n'] := by
  refine ⟨rfl, rfl, rfl, ?_, ?_, ?_⟩ <;> decide

end Program
end Horizon
