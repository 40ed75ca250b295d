import Horizon.Program.Sections

/-!
The step of a rule. The head fluents agree on it, so every way of reading it from the head gives
the same: the step of the first fluent decides the section, and the latest step of all guards the
cumulative form. They come apart where no step is set, because the guard then is 0. A rule is made of
any head that agrees on the step, and of no other head.
-/

namespace Horizon

theorem Step.max_eq (m n : Step) : max m n = if m ≤ n then n else m := rfl

theorem Step.toNat_max (m n : Step) : (max m n).toNat = max m.toNat n.toNat := by
  rw [max_eq]
  split <;> rename_i h <;> rw [UInt32.le_iff_toNat_le] at h <;> omega

/-- Every step but the initial one comes after it. -/
theorem Step.one_le {n : Step} (h : n ≠ 0) : 1 ≤ n := by
  rw [UInt32.le_iff_toNat_le]
  exact Nat.one_le_iff_ne_zero.mpr fun hzero => h (UInt32.toNat.inj hzero)

/-- The latest of steps that are all the same. -/
theorem Step.latest_of_agree {n : Step} {steps : List Step} (hne : steps ≠ [])
    (h : ∀ m ∈ steps, m = n) : steps.foldr max 0 = n := by
  apply UInt32.toNat.inj
  induction steps with
  | nil => contradiction
  | cons m steps ih =>
      obtain rfl := h m List.mem_cons_self
      rw [List.foldr_cons, Step.toNat_max]
      cases steps with
      | nil => simp
      | cons k steps =>
          rw [ih (by simp) fun j hj => h j (List.mem_cons_of_mem m hj), Nat.max_self]

theorem Step.max?_of_agree {n : Step} {steps : List Step} (hne : steps ≠ [])
    (h : ∀ m ∈ steps, m = n) : steps.max? = some n := by
  have : Std.MaxEqOr Step := by
    refine ⟨fun m k => ?_⟩
    rw [max_eq]
    split
    · exact .inr rfl
    · exact .inl rfl
  rw [List.eq_replicate_of_mem h]
  exact List.max?_replicate_of_pos (List.length_pos_iff.mpr hne)

namespace Rule

variable {r : Rule}

theorem step_eq_headStep {f : Fluent} (hf : f ∈ r.head) : f.step = r.headStep := by
  obtain ⟨g, gs, hhead⟩ := List.exists_cons_of_ne_nil (List.ne_nil_of_mem hf)
  have hg : g ∈ r.head := by rw [hhead]; exact List.mem_cons_self
  rw [r.agree f hf g hg, headStep, hhead]
  rfl

theorem exists_step_eq_headStep (h : r.head ≠ []) : ∃ f ∈ r.head, f.step = r.headStep := by
  obtain ⟨f, hf⟩ := List.exists_mem_of_ne_nil r.head h
  exact ⟨f, hf, step_eq_headStep hf⟩

theorem head_ne_nil {n : Step} (h : r.headStep = some n) : r.head ≠ [] := by
  intro hnil
  rw [headStep, hnil] at h
  cases h

theorem mem_headSteps_iff {n : Step} :
    n ∈ r.head.filterMap Fluent.step ↔ r.headStep = some n := by
  rw [List.mem_filterMap]
  constructor
  · rintro ⟨f, hf, hstep⟩
    rw [← step_eq_headStep hf, hstep]
  · intro hstep
    obtain ⟨f, hf, heq⟩ := exists_step_eq_headStep (head_ne_nil hstep)
    exact ⟨f, hf, heq.trans hstep⟩

theorem headSteps_eq_nil (h : r.headStep = none) : r.head.filterMap Fluent.step = [] := by
  rw [List.eq_nil_iff_forall_not_mem]
  intro n hn
  rw [mem_headSteps_iff, h] at hn
  cases hn

theorem headSteps_agree {n : Step} (h : r.headStep = some n) :
    r.head.filterMap Fluent.step ≠ [] ∧ ∀ m ∈ r.head.filterMap Fluent.step, m = n := by
  refine ⟨List.ne_nil_of_mem (mem_headSteps_iff.mpr h), fun m hm => ?_⟩
  rw [mem_headSteps_iff, h] at hm
  exact (Option.some.inj hm).symm

/-- The guard is the step of the head, or 0 if the head has none. -/
theorem guardStep_eq (r : Rule) : r.guardStep = r.headStep.getD 0 := by
  cases hstep : r.headStep with
  | none =>
      rw [guardStep, headSteps_eq_nil hstep]
      rfl
  | some n =>
      obtain ⟨hne, hagree⟩ := headSteps_agree hstep
      exact Step.latest_of_agree hne hagree

theorem max?_headSteps (r : Rule) : (r.head.filterMap Fluent.step).max? = r.headStep := by
  cases hstep : r.headStep with
  | none =>
      rw [headSteps_eq_nil hstep]
      rfl
  | some n =>
      obtain ⟨hne, hagree⟩ := headSteps_agree hstep
      exact Step.max?_of_agree hne hagree

theorem isInitial_iff : r.isInitial = true ↔ r.head ≠ [] ∧ ∀ f ∈ r.head, f.step = some 0 := by
  rw [isInitial, beq_iff_eq]
  constructor
  · intro hstep
    exact ⟨head_ne_nil hstep, fun f hf => (step_eq_headStep hf).trans hstep⟩
  · rintro ⟨hne, hall⟩
    obtain ⟨f, hf, heq⟩ := exists_step_eq_headStep hne
    exact heq.symm.trans (hall f hf)

/-! Making rules. -/

variable {head body : List Fluent}

/-- The disagreement that is found is the first one, counted from the front. -/
theorem disagreement?_eq_some_iff {e : MixedSteps} :
    disagreement? head = some e ↔ ∃ f before g after, head = f :: (before ++ g :: after) ∧
      (∀ h ∈ before, h.step = f.step) ∧ g.step ≠ f.step ∧ e = ⟨f.step, g.step⟩ := by
  cases head with
  | nil => simp [disagreement?]
  | cons f fs =>
      simp only [disagreement?, Option.map_eq_some_iff, List.find?_eq_some_iff_append]
      constructor
      · rintro ⟨g, ⟨hg, before, after, rfl, hbefore⟩, rfl⟩
        exact ⟨f, before, g, after, rfl, by simpa using hbefore, by simpa using hg, rfl⟩
      · rintro ⟨f', before, g, after, hhead, hbefore, hg, rfl⟩
        obtain ⟨rfl, rfl⟩ := List.cons_eq_cons.mp hhead
        exact ⟨g, ⟨by simpa using hg, before, after, rfl, by simpa using hbefore⟩, rfl⟩

theorem of_eq_error_iff {e : MixedSteps} : of head body = .error e ↔ disagreement? head = some e := by
  unfold of
  split <;> simp_all

theorem of_eq_ok_iff {r : Rule} : of head body = .ok r ↔ r.head = head ∧ r.body = body := by
  constructor
  · intro h
    unfold of at h
    split at h
    · cases h
    · cases h
      exact ⟨rfl, rfl⟩
  · rintro ⟨rfl, rfl⟩
    cases hof : of r.head r.body with
    | ok s =>
        unfold of at hof
        split at hof <;> cases hof
        rfl
    | error e =>
        obtain ⟨f, before, g, after, hhead, -, hne, -⟩ :=
          disagreement?_eq_some_iff.mp (of_eq_error_iff.mp hof)
        exact absurd (r.agree g (by simp [hhead]) f (by simp [hhead])) hne

/-- However the step is read from the head of a rule, it is the step of the rule. -/
structure OneStep (r : Rule) : Prop where
  shared : ∀ f ∈ r.head, f.step = r.headStep
  latest : (r.head.filterMap Fluent.step).max? = r.headStep
  guarded : r.guardStep = r.headStep.getD 0
  initial : r.isInitial = true ↔ r.head ≠ [] ∧ ∀ f ∈ r.head, f.step = some 0

/-- A rule is made of a head and a body exactly if the head fluents are all at one step or all
without a step; otherwise the first step of the head and the first one that differs from it are
reported. Facts, constraints and the empty rule are rules that are made so, as every rule is, and
every rule has one step, however it is read. -/
theorem of_decides_agreement :
    (∀ head body, (∃ r, of head body = .ok r) ↔ ∃ step, ∀ f ∈ head, f.step = step) ∧
    (∀ head body r, of head body = .ok r ↔ r.head = head ∧ r.body = body) ∧
    (∀ head body e, of head body = .error e ↔
      ∃ f before g after, head = f :: (before ++ g :: after) ∧
        (∀ h ∈ before, h.step = f.step) ∧ g.step ≠ f.step ∧ e = ⟨f.step, g.step⟩) ∧
    (∀ f, of [f] [] = .ok (fact f)) ∧ (∀ body, of [] body = .ok (constraint body)) ∧
    of [] [] = .ok empty ∧
    ∀ r : Rule, of r.head r.body = .ok r ∧ OneStep r := by
  refine ⟨?_, fun _ _ _ => of_eq_ok_iff, fun _ _ _ => of_eq_error_iff.trans
    disagreement?_eq_some_iff, fun _ => rfl, fun _ => rfl, rfl, ?_⟩
  · intro head body
    constructor
    · rintro ⟨r, hr⟩
      obtain ⟨rfl, -⟩ := of_eq_ok_iff.mp hr
      exact ⟨r.headStep, fun f hf => step_eq_headStep hf⟩
    · rintro ⟨step, hstep⟩
      have agree : ∀ f ∈ head, ∀ g ∈ head, f.step = g.step :=
        fun f hf g hg => (hstep f hf).trans (hstep g hg).symm
      exact ⟨⟨head, body, agree⟩, of_eq_ok_iff.mpr ⟨rfl, rfl⟩⟩
  · intro r
    exact ⟨of_eq_ok_iff.mpr ⟨rfl, rfl⟩,
      ⟨fun f hf => step_eq_headStep hf, max?_headSteps r, guardStep_eq r, isInitial_iff⟩⟩

end Rule

namespace Program

/-- The step section takes the rules whose heads are not at the initial state. -/
theorem mem_step_iff {rules : List Rule} {r : Rule} :
    r ∈ (ofRules rules).step ↔ r ∈ rules ∧ r.headStep ≠ some 0 := by
  simp [ofRules, List.partition_eq_filter_filter, Rule.isInitial]

end Program
end Horizon
