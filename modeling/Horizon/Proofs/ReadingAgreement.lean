import Horizon.Proofs.OutputReadings

/-!
The two readings of one output. A word is read as a fluent exactly if it is read as an atom
whose last argument is a step, so the answer sets are the groups of atoms that convert. An
interruption takes the last of what each reading has kept, and these may be different answers.
-/

namespace Horizon

namespace Atom

/-- The step that the last argument gives, if it is a 32-bit numeral. -/
def lastStep? (a : Atom) : Option Step :=
  a.arguments.getLast?.bind fun last => (Numeral.read32 last).toOption

/-- The atom with its last argument as the step and the others as the arguments. -/
def toFluent (a : Atom) : Fluent := ⟨⟨a.name, a.arguments.dropLast⟩, a.lastStep?⟩

/-- Whether the last argument of every atom of a group is a step. -/
def converts (group : List Atom) : Bool := group.all fun a => a.lastStep?.isSome

end Atom

namespace AnswerSet

def ofAtoms (group : List Atom) : AnswerSet := ⟨group.map Atom.toFluent⟩

end AnswerSet

namespace Fluent

theorem ofAtom?_eq_ite (a : Atom) :
    ofAtom? a = if a.lastStep?.isSome then some a.toFluent else none := by
  unfold ofAtom? Atom.toFluent Atom.lastStep?
  cases a.arguments.getLast? with
  | none => rfl
  | some last => cases h : Numeral.read32 last <;> simp [Except.toOption, h]

theorem read_eq_ok_iff_atom (w : Text) (f : Fluent) :
    Fluent.read w = .ok f ↔ ∃ a, Atom.read w = .ok a ∧ a.lastStep?.isSome ∧ a.toFluent = f := by
  unfold Fluent.read
  cases Atom.read w with
  | error e => simp
  | ok a => cases h : a.lastStep?.isSome <;> simp [ofAtom?_eq_ite, h]

end Fluent

namespace Reading

/-- A list of words is read as fluents exactly if it is read as a group that converts. -/
theorem each_fluents_iff (ws : List Text) (fs : List Fluent) :
    each Fluent.read ws = .ok fs ↔
      ∃ group, each Atom.read ws = .ok group ∧ Atom.converts group ∧
        group.map Atom.toFluent = fs := by
  simp only [each_eq_ok_iff]
  induction ws generalizing fs with
  | nil => cases fs <;> simp [Atom.converts]
  | cons w ws ih =>
      cases fs with
      | nil => simp
      | cons f fs =>
          simp only [List.map_cons, List.cons.injEq, ih, Fluent.read_eq_ok_iff_atom]
          constructor
          · rintro ⟨⟨a, ha, hstep, rfl⟩, group, hgroup, hconverts, rfl⟩
            have hall : Atom.converts (a :: group) = true := by
              rw [Atom.converts, List.all_cons, hstep]
              exact hconverts
            exact ⟨a :: group, by simp [ha, hgroup], hall, rfl⟩
          · rintro ⟨group, hgroup, hconverts, hfs⟩
            cases group with
            | nil => contradiction
            | cons a group =>
                simp only [List.map_cons, List.cons.injEq] at hgroup hfs
                simp only [Atom.converts, List.all_cons, Bool.and_eq_true] at hconverts
                exact ⟨⟨a, hgroup.1, hconverts.1, hfs.1⟩, group, hgroup.2, hconverts.2, hfs.2⟩

theorem readable?_fluents (c : Text) :
    readable? fluents c =
      ((readable? atoms c).filter Atom.converts).map AnswerSet.ofAtoms := by
  apply Option.ext
  intro a
  simp only [readable?_eq_some_iff, fluents_eq_ok_iff, each_fluents_iff, Option.map_eq_some_iff,
    Option.filter_eq_some_iff, atoms]
  constructor
  · rintro ⟨group, hread, hconverts, hfs⟩
    exact ⟨group, ⟨hread, hconverts⟩, by simp [AnswerSet.ofAtoms, hfs]⟩
  · rintro ⟨group, ⟨hread, hconverts⟩, rfl⟩
    exact ⟨group, hread, hconverts, rfl⟩

/-- The groups that convert, as answer sets. -/
def converted (groups : List (List Atom)) : List AnswerSet :=
  (groups.filter Atom.converts).map AnswerSet.ofAtoms

theorem readable_fluents (es : List Event) :
    readable fluents es = converted (readable atoms es) := by
  induction es with
  | nil => rfl
  | cons e es ih =>
      cases e with
      | answer c =>
          have split : ∀ {α : Type} (read : Text → Except ReadError α),
              readable read (.answer c :: es) = (readable? read c).toList ++ readable read es := by
            intro α read
            cases h : readable? read c <;> simp [readable, h]
          rw [split, split, ih, readable?_fluents]
          cases readable? atoms c with
          | none => rfl
          | some group => cases h : Atom.converts group <;> simp [converted, Option.filter, h]
      | _ => exact ih

/-- A reading of the answers before the last one keeps all that converts of them, or all but
the last of it if the last answer does not convert. -/
theorem dropLast_converted (groups : List (List Atom)) :
    (converted groups).dropLast = converted groups.dropLast ∨
      (converted groups).dropLast = (converted groups.dropLast).dropLast := by
  rcases List.eq_nil_or_concat groups with rfl | ⟨earlier, last, rfl⟩
  · exact .inl rfl
  · rw [List.concat_eq_append, List.dropLast_concat]
    cases hlast : Atom.converts last with
    | true => exact .inl (by simp [converted, hlast])
    | false => exact .inr (by simp [converted, hlast])

theorem answerSets_converted_or_dropLast (policy : Policy) (levels : Levels) (s : Text) :
    let groups := (atomGroups policy levels s).value
    let sets := (answerSets policy levels s).value
    sets = converted groups ∨
      .interrupted ∈ considered (Event.scan s) ∧ sets = (converted groups).dropLast := by
  intro groups sets
  have hgroups := value_collect atoms policy levels [] false (Event.scan s)
  have hsets := value_collect fluents policy levels [] false (Event.scan s)
  rw [readable_fluents] at hsets
  generalize readable atoms (considered (Event.scan s)) = kept at hgroups hsets
  by_cases hdiscard : policy = .discard ∧ .unsatisfiable ∈ Event.scan s
  · rw [if_pos hdiscard] at hgroups hsets
    left
    calc sets = [] := hsets
      _ = converted groups := (congrArg converted hgroups).symm
  · by_cases hinterrupted : .interrupted ∈ considered (Event.scan s)
    · simp only [hdiscard, hinterrupted, if_false, if_true, or_true, List.reverse_nil,
        List.nil_append] at hgroups hsets
      have hrest : converted groups = converted kept.dropLast := congrArg converted hgroups
      rw [hrest, show sets = (converted kept).dropLast from hsets]
      exact (dropLast_converted kept).imp_right fun h => ⟨hinterrupted, h⟩
    · simp only [hdiscard, hinterrupted, if_false, or_false, Bool.false_eq_true,
        List.reverse_nil, List.nil_append] at hgroups hsets
      left
      calc sets = converted kept := hsets
        _ = converted groups := (congrArg converted hgroups).symm

/-- Both readings of every output, under either policy. The answer sets are those of the groups
that convert, in order; at most the last one is missing, and none if no interruption is
reported before the first report of unsatisfiability. -/
theorem answerSets_eq_converted_atomGroups (policy : Policy) (levels : Levels) (s : Text) :
    let groups := (atomGroups policy levels s).value
    let sets := (answerSets policy levels s).value
    sets <+: converted groups ∧ (converted groups).length ≤ sets.length + 1 ∧
      (.interrupted ∉ considered (Event.scan s) → sets = converted groups) := by
  intro groups sets
  rcases answerSets_converted_or_dropLast policy levels s with heq | ⟨hinterrupted, heq⟩
  · have hsets : sets = converted groups := heq
    rw [hsets]
    exact ⟨List.prefix_rfl, Nat.le_succ _, fun _ => rfl⟩
  · have hsets : sets = (converted groups).dropLast := heq
    refine ⟨?_, ?_, fun hno => absurd hinterrupted hno⟩
    · rw [hsets]
      exact List.dropLast_prefix _
    · rw [hsets, List.length_dropLast]
      omega

/-- The interruption takes the group without a step, and the only answer set. -/
example :
    let text := "Answer: 1\ngo(b,1)\nAnswer: 2\ndone\nINTERRUPTED : 1\n".toList
    (atomGroups .keep .none text).value = [[⟨"go".toList, ["b".toList, "1".toList]⟩]] ∧
      (answerSets .keep .none text).value = [] := ⟨rfl, rfl⟩

end Reading
end Horizon
