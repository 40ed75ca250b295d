import Horizon.Engine.Scripted
import Horizon.Proofs.CumulativeForms
import Horizon.Proofs.FluentRendering
import Horizon.Proofs.QueryReplies

/-!
Monitoring a plan. The plan's atoms are replayed one a step from step 1 on, the engine is
asked for the step where the last of them stands, and the answer sets that end before this step
are dropped. So an answer set that holds the whole replay is always kept, and what is kept goes
on to the end of the plan.
-/

namespace Horizon

namespace AnswerSet

/-- The atoms of a plan at the steps 1, 2, …, in the place of their own steps. -/
def replayed (plan : AnswerSet) : List Fluent :=
  (plan.fluents.map Fluent.atom).mapIdx fun i a => ⟨a, some (UInt32.ofNat (i + 1))⟩

theorem getElem?_replayed (plan : AnswerSet) (i : Nat) :
    plan.replayed[i]? = plan.fluents[i]?.map fun f => f.moveTo (UInt32.ofNat (i + 1)) := by
  simp [replayed, Fluent.moveTo, Function.comp_def]

theorem le_maxStep_of_mem {a : AnswerSet} {f : Fluent} {n : Step} (hf : f ∈ a.fluents)
    (hn : f.step = some n) : n.toNat ≤ a.maxStep.toNat := by
  have hmem : n ∈ a.fluents.filterMap Fluent.step := List.mem_filterMap.mpr ⟨f, hf, hn⟩
  unfold maxStep
  generalize a.fluents.filterMap Fluent.step = steps at hmem ⊢
  induction steps with
  | nil => contradiction
  | cons m steps ih =>
      rw [List.foldr_cons, Step.toNat_max]
      rcases List.mem_cons.mp hmem with rfl | hmem
      · exact Nat.le_max_left _ _
      · exact Nat.le_trans (ih hmem) (Nat.le_max_right _ _)

/-- The last step of a replay is the length of the plan. -/
theorem size_le_maxStep_of_replayed {plan a : AnswerSet} (size : plan.size < UInt32.size)
    (h : ∀ f ∈ plan.replayed, f ∈ a.fluents) : plan.size ≤ a.maxStep.toNat := by
  cases hsize : plan.size with
  | zero => exact Nat.zero_le _
  | succ n =>
      have hn : n < plan.fluents.length := by rw [← AnswerSet.size, hsize]; omega
      have last : plan.replayed[n]? = some (plan.fluents[n].moveTo (UInt32.ofNat (n + 1))) := by
        rw [getElem?_replayed, List.getElem?_eq_getElem hn, Option.map_some]
      have hle := le_maxStep_of_mem (h _ (List.mem_of_getElem? last)) rfl
      rwa [UInt32.toNat_ofNat_of_lt' (by omega)] at hle

end AnswerSet

namespace Program

theorem replayFrom_eq_mapIdx (n : Step) (fs : List Fluent) :
    replayFrom n fs =
      (fs.map Fluent.atom).mapIdx fun i a => Rule.fact ⟨a, some (n + UInt32.ofNat i)⟩ := by
  induction fs generalizing n with
  | nil => rfl
  | cons f fs ih =>
      have next : ∀ i, n + 1 + UInt32.ofNat i = n + UInt32.ofNat (i + 1) := by
        intro i
        rw [UInt32.ofNat_add, UInt32.add_assoc, UInt32.add_comm 1]
        rfl
      rw [replayFrom, ih, List.map_cons, List.mapIdx_cons]
      simp only [next, Fluent.moveTo]
      simp

theorem replay_eq_map_fact (plan : AnswerSet) : replay plan = plan.replayed.map Rule.fact := by
  have first : ∀ i, 1 + UInt32.ofNat i = UInt32.ofNat (i + 1) := by
    intro i
    rw [UInt32.ofNat_add, UInt32.add_comm]
    rfl
  apply List.ext_getElem?
  intro i
  simp [replay, replayFrom_eq_mapIdx, first, AnswerSet.replayed, Function.comp_def]

/-- The line that replays an atom at a step. -/
def replayLine (var : Text) (a : Atom) (n : Nat) : Text :=
  a.renderWith var ++ ":- ".toList ++ var ++ '=' :: Numeral.write n ++ Rule.stop

theorem cumulative_fact (var : Text) (a : Atom) (n : Step) :
    Rule.cumulative var (Rule.fact ⟨a, some n⟩) = replayLine var a n.toNat := by
  rw [Rule.cumulative_eq_guarded (List.cons_ne_nil _ _)]
  simp [Rule.guarded, Rule.fact, Rule.headStep, replayLine, Fluent.renderAt, Atom.renderWith]

/-- The replay of a plan as text: one line an atom. -/
def replayLines (var : Text) (plan : AnswerSet) : List Text :=
  (plan.fluents.map Fluent.atom).mapIdx fun i a => replayLine var a (i + 1)

theorem cumulativeAll_replay (var : Text) {plan : AnswerSet} (size : plan.size < UInt32.size) :
    Rule.cumulativeAll var (replay plan) = (replayLines var plan).flatten := by
  have lines : plan.replayed.map (fun f => Rule.cumulative var (Rule.fact f)) =
      replayLines var plan := by
    apply List.ext_getElem?
    intro i
    rw [List.getElem?_map, AnswerSet.getElem?_replayed, replayLines, List.getElem?_mapIdx,
      List.getElem?_map]
    cases hf : plan.fluents[i]? with
    | none => rfl
    | some f =>
        obtain ⟨hi, -⟩ := List.getElem?_eq_some_iff.mp hf
        have hlt : i + 1 < UInt32.size := Nat.lt_of_le_of_lt hi size
        simp only [Option.map_some, Fluent.moveTo]
        rw [cumulative_fact, UInt32.toNat_ofNat_of_lt' hlt]
  rw [Rule.cumulativeAll, replay_eq_map_fact, List.flatMap_map, List.flatMap_def, lines]

/-- A plan is replayed as it is exactly if its fluents stand at the steps 1, 2, … already. -/
theorem replay_eq_own_iff (plan : AnswerSet) :
    replay plan = plan.fluents.map Rule.fact ↔
      ∀ i f, plan.fluents[i]? = some f → f.step = some (UInt32.ofNat (i + 1)) := by
  have same : ∀ i f, Rule.fact (f.moveTo (UInt32.ofNat (i + 1))) = Rule.fact f ↔
      f.step = some (UInt32.ofNat (i + 1)) := by
    intro i f
    obtain ⟨a, n⟩ := f
    simp [Rule.fact, Fluent.moveTo, eq_comm]
  rw [List.ext_getElem?_iff]
  simp only [replay_eq_map_fact, List.getElem?_map, AnswerSet.getElem?_replayed, Option.map_map]
  constructor
  · intro h i f hf
    have hi := h i
    rw [hf, Option.map_some, Option.map_some, Option.some.injEq] at hi
    exact (same i f).mp hi
  · intro h i
    cases hf : plan.fluents[i]? with
    | none => rfl
    | some f => exact congrArg some ((same i f).mpr (h i f hf))

end Program

namespace Reasoner

theorem toNat_planLength {plan : AnswerSet} (size : plan.size < UInt32.size) :
    (planLength plan).toNat = plan.size := by
  rw [planLength, if_pos size, UInt32.toNat_ofNat_of_lt' size]

/-- The answer sets in captured output that reach the end of a plan. -/
def survivors (r : Reasoner) (plan : AnswerSet) (text : Text) : List AnswerSet :=
  AnswerSet.prune (planLength plan) (Reading.answerSets .discard r.levels text).value

theorem mem_survivors_iff {r : Reasoner} {plan S : AnswerSet} {text : Text}
    (size : plan.size < UInt32.size) :
    S ∈ r.survivors plan text ↔
      S ∈ (Reading.answerSets .discard r.levels text).value ∧ plan.size ≤ S.maxStep.toNat := by
  rw [survivors, AnswerSet.prune, List.mem_filter, decide_eq_true_eq, UInt32.le_iff_toNat_le,
    toNat_planLength size]

/-- A request that has the atoms of a plan replayed up to the step where the plan ends. -/
structure AsksReplay (r : Reasoner) (goal : List Rule) (plan : AnswerSet) (request : Request) :
    Prop where
  initial : request.initialStep.toNat = plan.size
  final : request.finalStep.toNat = plan.size
  /-- After the goal comes a step section of one fact an atom. -/
  program : ∃ facts : List Text, facts.length = plan.size ∧
    (∀ i f, plan.fluents[i]? = some f →
      facts[i]? = some (Program.replayLine r.var f.atom (i + 1))) ∧
    request.program =
      Program.plan goal r.var ++ Program.header "step" r.var ++ facts.flatten

theorem asksReplay_request (r : Reasoner) (goal : List Rule) {plan : AnswerSet}
    (size : plan.size < UInt32.size) :
    r.AsksReplay goal plan (r.request (.monitor goal plan)).value := by
  refine ⟨toNat_planLength size, toNat_planLength size,
    Program.replayLines r.var plan, ?_, ?_, ?_⟩
  · simp [Program.replayLines, AnswerSet.size]
  · intro i f hf
    simp [Program.replayLines, hf]
  · rw [← Program.cumulativeAll_replay r.var size]
    rfl

/-- The steps of a plan are not looked at. -/
theorem request_monitor_congr (r : Reasoner) (goal : List Rule) {plan other : AnswerSet}
    (h : other.fluents.map Fluent.atom = plan.fluents.map Fluent.atom) :
    (r.request (.monitor goal other)).value = (r.request (.monitor goal plan)).value := by
  have size : other.size = plan.size := by
    simpa [AnswerSet.size] using congrArg List.length h
  have replay : Program.replay other = Program.replay plan := by
    rw [Program.replay_eq_map_fact, Program.replay_eq_map_fact, AnswerSet.replayed, h,
      AnswerSet.replayed]
  have length : planLength other = planLength plan := by rw [planLength, size, planLength]
  have program : (r.compile (.monitor goal other)).value = (r.compile (.monitor goal plan)).value := by
    simp [compile, Compilation.compile, Compilation.text, Program.monitor, replay]
  simp [request, length, program]

/-- Monitoring, for every goal, plan and engine. The engine is asked for the step where the plan
ends and told the plan's atoms one a step. An answer set in its output that holds the whole
replay is kept and makes the plan valid, and a valid plan has an answer set that goes on to its
end. -/
theorem monitor_replays_and_prunes {σ : Type} (r : Reasoner) (engine : Engine σ) (s : σ)
    (goal : List Rule) (plan : AnswerSet) (size : plan.size < 4294967295) :
    let request := (r.request (.monitor goal plan)).value
    let sets := fun t : Transcript => (Reading.answerSets .discard r.levels t.text).value
    r.AsksReplay goal plan request ∧
    (∀ other : AnswerSet, other.fluents.map Fluent.atom = plan.fluents.map Fluent.atom →
      (r.request (.monitor goal other)).value = request) ∧
    (Program.replay plan = plan.fluents.map Rule.fact ↔
      ∀ i f, plan.fluents[i]? = some f → f.step = some (UInt32.ofNat (i + 1))) ∧
    (∀ t, (engine request s).result = .ok t →
      ∀ S ∈ sets t, (∀ f ∈ plan.replayed, f ∈ S.fluents) →
        (∃ kept, (r.ask engine (.monitor goal plan) s).result = .ok (.answerSets kept) ∧
          S ∈ kept) ∧
        (r.ask engine (.isPlanValid goal plan) s).result = .ok (.verdict true)) ∧
    ((r.ask engine (.isPlanValid goal plan) s).result = .ok (.verdict true) →
      ∃ t, (engine request s).result = .ok t ∧ ∃ S ∈ sets t, plan.size ≤ S.maxStep.toNat) := by
  intro request sets
  have size' : plan.size < UInt32.size := Nat.lt_trans size (by decide)
  have monitored := r.result_ask engine (.monitor goal plan) s
  have validated : (r.ask engine (.isPlanValid goal plan) s).result =
      (engine request s).result.map fun t => .verdict !(r.survivors plan t.text).isEmpty :=
    r.result_ask engine (.isPlanValid goal plan) s
  refine ⟨r.asksReplay_request goal size', fun other => r.request_monitor_congr goal,
    Program.replay_eq_own_iff plan, ?_, ?_⟩
  · intro t ht S hS hreplayed
    have hmem : S ∈ r.survivors plan t.text :=
      (mem_survivors_iff size').mpr ⟨hS, AnswerSet.size_le_maxStep_of_replayed size' hreplayed⟩
    have found : (r.survivors plan t.text).isEmpty = false := by
      rw [List.isEmpty_eq_false_iff]
      exact List.ne_nil_of_mem hmem
    refine ⟨⟨r.survivors plan t.text, ?_, hmem⟩, ?_⟩
    · rw [monitored, ht]
      rfl
    · rw [validated, ht, Except.map, found]
      rfl
  · intro hvalid
    rw [validated] at hvalid
    cases ht : (engine request s).result with
    | error e => rw [ht] at hvalid; contradiction
    | ok t =>
        rw [ht] at hvalid
        cases hkept : r.survivors plan t.text with
        | nil => simp [Except.map, hkept] at hvalid
        | cons S kept =>
            have hmem : S ∈ r.survivors plan t.text := by rw [hkept]; exact List.mem_cons_self
            obtain ⟨hS, hlong⟩ := (mem_survivors_iff size').mp hmem
            exact ⟨t, rfl, S, hS, hlong⟩

/-- One action twice, at steps that are not those of a replay. -/
def repeated : AnswerSet :=
  ⟨[⟨⟨"go".toList, ["b".toList]⟩, some 7⟩, ⟨⟨"go".toList, ["b".toList]⟩, none⟩]⟩

def repeatedOutput : Text := "Answer: 1\ngo(b,1) at(b,1) go(b,2)\n".toList

/-- The answer set in the output. -/
def repeatedAnswer : AnswerSet :=
  ⟨[⟨⟨"go".toList, ["b".toList]⟩, some 1⟩, ⟨⟨"at".toList, ["b".toList]⟩, some 1⟩,
    ⟨⟨"go".toList, ["b".toList]⟩, some 2⟩]⟩

theorem monitor_repeated :
    repeated.size < 4294967295 ∧
    (Reading.answerSets .discard {} repeatedOutput).value = [repeatedAnswer] ∧
    (∀ f ∈ repeated.replayed, f ∈ repeatedAnswer.fluents) ∧
    (ask {} Engine.scripted (.isPlanValid [] repeated) { outputs := [some repeatedOutput] }).result =
      .ok (.verdict true) := by
  have size : repeated.size < 4294967295 := by decide
  have sets : (Reading.answerSets .discard {} repeatedOutput).value = [repeatedAnswer] := rfl
  have mem : repeatedAnswer ∈ (Reading.answerSets .discard {} repeatedOutput).value := by
    rw [sets]
    exact List.mem_cons_self
  have replayed : ∀ f ∈ repeated.replayed, f ∈ repeatedAnswer.fluents := by decide
  obtain ⟨-, -, -, valid, -⟩ := monitor_replays_and_prunes {} Engine.scripted
    { outputs := [some repeatedOutput] } [] repeated size
  exact ⟨size, sets, replayed, (valid _ rfl repeatedAnswer mem replayed).2⟩

end Reasoner
end Horizon
