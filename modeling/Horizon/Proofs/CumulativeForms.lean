import Horizon.Proofs.NumeralReading
import Horizon.Proofs.RuleSteps

/-!
The cumulative form as a template. A rule with a head is written at the step variable, and one more
condition guards it: that the variable is the step of the head. At this step the template is the
rule itself but for the guard. In the step section only a head without a step is guarded with 0.
-/

namespace Horizon
namespace Rule

/-- A rule at a variable. After the conditions of its body comes one more, that the variable is a
given step. -/
def guarded (var : Text) (n : Step) (r : Rule) : Text :=
  Text.join " | ".toList (r.head.map fun f => f.renderAt var) ++ ":- ".toList ++
    Text.join ", ".toList (r.body.map Fluent.render ++ [var ++ '=' :: Numeral.write n.toNat]) ++
    stop

/-- The guard tells the step it was written for. -/
theorem guarded_inj {var : Text} {m n : Step} {r : Rule} (h : r.guarded var m = r.guarded var n) :
    m = n := by
  simp only [guarded, Text.join_concat, List.append_assoc, List.append_cancel_left_eq,
    List.cons_append, List.cons.injEq, true_and] at h
  have ends : Text.StopsAt Char.isDigit stop := by simp [stop]
  exact UInt32.toNat.inj (Numeral.write_append_inj ends ends h)

variable {r : Rule}

theorem isEmpty_eq_false (h : r.head ≠ []) : r.isEmpty = false := by
  simp [isEmpty, h]

/-- Every rule with a head is guarded, with its step or with 0. -/
theorem cumulative_eq_guarded (h : r.head ≠ []) (var : Text) :
    r.cumulative var = r.guarded var (r.headStep.getD 0) := by
  simp [cumulative, isEmpty_eq_false h, h, guard, guardStep_eq, guarded, separated,
    Text.join_concat]

/-- Where the step is set, the head is rendered as it is at this step. -/
theorem map_render_head {n : Step} (h : r.headStep = some n) :
    r.head.map Fluent.render = r.head.map fun f => f.renderAt (Numeral.write n.toNat) := by
  apply List.map_congr_left
  intro f hf
  rw [Fluent.render, step_eq_headStep hf, h]

/-- The text of a rule at its own steps, without what ends it. -/
def statement (r : Rule) : Text :=
  separated " | " Fluent.render r.head ++
    (if r.body.isEmpty then [] else ":- ".toList ++ separated ", " Fluent.render r.body)

theorem fixed_none (h : r.head ≠ []) : r.fixed none = r.statement ++ stop := by
  simp [fixed, isEmpty_eq_false h, statement]

/-- At the step of its head, a template is the rule with a guard. -/
theorem guarded_own_step {n : Step} (h : r.headStep = some n) :
    r.guarded (Numeral.write n.toNat) n =
      r.statement ++ (if r.body = [] then ":- ".toList else ", ".toList) ++
        Numeral.write n.toNat ++ '=' :: Numeral.write n.toNat ++ stop := by
  rw [guarded, ← map_render_head h, Text.join_concat, statement, separated, separated]
  cases hbody : r.body with
  | nil => simp
  | cons f fs => simp

/-- The template of a rule that has a step is the rule itself where the variable is this step: the
same text, but for a guard before its end that is true there. For every variable the guard is the
condition that the variable is the step of the head. -/
theorem cumulative_at_own_step {n : Step} (h : r.headStep = some n) :
    (∃ front, r.fixed none = front ++ ".\n".toList ∧
      r.cumulative (Numeral.write n.toNat) =
        front ++ (if r.body = [] then ":- ".toList else ", ".toList) ++ Numeral.write n.toNat ++
          '=' :: Numeral.write n.toNat ++ ".\n".toList) ∧
    ∀ var, r.cumulative var = r.guarded var n := by
  have hne : r.head ≠ [] := head_ne_nil h
  have template : ∀ var, r.cumulative var = r.guarded var n := by
    intro var
    rw [cumulative_eq_guarded hne, h, Option.getD_some]
  refine ⟨⟨r.statement, fixed_none hne, ?_⟩, template⟩
  rw [template, guarded_own_step h]
  rfl

/-- Two fluents at a step that has two digits, and a body at other steps. -/
def choiceRule : Rule where
  head := [⟨⟨"at".toList, ["b".toList]⟩, some 12⟩, ⟨⟨"idle".toList, []⟩, some 12⟩]
  body := [⟨⟨"go".toList, ["b".toList]⟩, some 11⟩, ⟨⟨"open".toList, []⟩, none⟩]
  agree := by simp

theorem cumulative_at_own_step_choice :
    choiceRule.headStep = some 12 ∧
    choiceRule.fixed none = "at(b,12) | idle(12):- go(b,11), open.\n".toList ∧
    choiceRule.cumulative "12".toList =
      "at(b,12) | idle(12):- go(b,11), open, 12=12.\n".toList ∧
    choiceRule.cumulative "t".toList = "at(b,t) | idle(t):- go(b,11), open, t=12.\n".toList := by
  have step : choiceRule.headStep = some 12 := rfl
  obtain ⟨⟨front, hfixed, hown⟩, template⟩ := cumulative_at_own_step step
  have whole : choiceRule.fixed none =
      "at(b,12) | idle(12):- go(b,11), open".toList ++ ".\n".toList := rfl
  have hfront : front = "at(b,12) | idle(12):- go(b,11), open".toList :=
    List.append_cancel_right (hfixed.symm.trans whole)
  refine ⟨step, whole, ?_, ?_⟩
  · have numeral : "12".toList = Numeral.write (12 : Step).toNat := rfl
    rw [numeral, hown, hfront]
    rfl
  · rw [template]
    rfl

end Rule

namespace Program

open Rule

theorem cumulative_infix_render (var : Text) {p : Program} {r : Rule} (h : r ∈ p.step) :
    r.cumulative var <:+: p.render var := by
  obtain ⟨before, after, hsplit⟩ := List.append_of_mem h
  refine ⟨baseHeader ++ fixedAll (some 0) p.base ++ ['\n'] ++ header "step" var ++
    cumulativeAll var before, cumulativeAll var after ++ ['\n'], ?_⟩
  simp [render, hsplit, cumulativeAll]

/-- How the step section guards its rules with heads. Either all fluents of the head are at one
step, and the guard is this step and not the initial one; or none of them has a step, and the guard
is the initial step, which the step section never comes to. So there is no such guard exactly if
every head has a step. -/
theorem step_section_guards (rules : List Rule) (var : Text) :
    (∀ r ∈ (ofRules rules).step, r.head ≠ [] → ∃ n, r.cumulative var = r.guarded var n ∧
      r.cumulative var <:+: (ofRules rules).render var ∧
      ((∀ f ∈ r.head, f.step = some n) ∧ 1 ≤ n ∨ (∀ f ∈ r.head, f.step = none) ∧ n = 0)) ∧
    ((∀ r ∈ (ofRules rules).step, r.head ≠ [] →
        ∃ n, r.cumulative var = r.guarded var n ∧ 1 ≤ n) ↔
      ∀ r ∈ rules, r.head ≠ [] → ∃ n, r.headStep = some n) := by
  refine ⟨?_, ?_, ?_⟩
  · intro r hr hne
    have later := (mem_step_iff.mp hr).2
    refine ⟨_, cumulative_eq_guarded hne var, cumulative_infix_render var hr, ?_⟩
    cases hstep : r.headStep with
    | none => exact .inr ⟨fun f hf => (step_eq_headStep hf).trans hstep, rfl⟩
    | some n =>
        refine .inl ⟨fun f hf => (step_eq_headStep hf).trans hstep, Step.one_le ?_⟩
        rintro rfl
        exact later hstep
  · intro guards r hr hne
    cases hstep : r.headStep with
    | some n => exact ⟨n, rfl⟩
    | none =>
        have later : r ∈ (ofRules rules).step := mem_step_iff.mpr ⟨hr, by simp [hstep]⟩
        obtain ⟨n, htext, hn⟩ := guards r later hne
        rw [cumulative_eq_guarded hne, hstep] at htext
        rw [← guarded_inj htext] at hn
        contradiction
  · intro set r hr hne
    obtain ⟨hmem, later⟩ := mem_step_iff.mp hr
    obtain ⟨n, hstep⟩ := set r hmem hne
    refine ⟨n, by rw [cumulative_eq_guarded hne, hstep, Option.getD_some], Step.one_le ?_⟩
    rintro rfl
    exact later hstep

/-- A head without a step. -/
def unanchored : Rule := fact ⟨⟨"closed".toList, ["d1".toList]⟩, none⟩

/-- A head at a step, beside one without a step and one at the initial step. -/
theorem step_section_guards_choice :
    let rules := [unanchored, fact ⟨⟨"at".toList, ["a".toList]⟩, some 0⟩, choiceRule]
    choiceRule ∈ (ofRules rules).step ∧ choiceRule.head ≠ [] ∧
    choiceRule.cumulative ['n'] = choiceRule.guarded ['n'] 12 ∧
    choiceRule.cumulative ['n'] <:+: (ofRules rules).render ['n'] := by
  intro rules
  have hmem : choiceRule ∈ (ofRules rules).step := by
    rw [mem_step_iff]
    exact ⟨by simp [rules], by decide⟩
  have hne : choiceRule.head ≠ [] := List.cons_ne_nil _ _
  obtain ⟨n, htext, hpart, hstep⟩ := (step_section_guards rules ['n']).1 choiceRule hmem hne
  refine ⟨hmem, hne, ?_, hpart⟩
  rcases hstep with ⟨set, -⟩ | ⟨unset, -⟩
  · obtain rfl : 12 = n := Option.some.inj (set _ List.mem_cons_self)
    exact htext
  · cases unset _ List.mem_cons_self

/-- The guard of a head without a step is met at the initial step only. -/
theorem step_section_guards_unanchored :
    unanchored ∈ (ofRules [unanchored]).step ∧ unanchored.head ≠ [] ∧
    unanchored.cumulative ['n'] = "closed(d1,n):- n=0.\n".toList ∧
    ¬ ∃ n, unanchored.cumulative ['n'] = unanchored.guarded ['n'] n ∧ 1 ≤ n := by
  have hne : unanchored.head ≠ [] := List.cons_ne_nil _ _
  refine ⟨mem_step_iff.mpr ⟨List.mem_singleton_self _, by decide⟩, hne, rfl, ?_⟩
  rintro ⟨n, htext, hn⟩
  rw [cumulative_eq_guarded hne] at htext
  rw [← guarded_inj htext] at hn
  contradiction

end Program
end Horizon
