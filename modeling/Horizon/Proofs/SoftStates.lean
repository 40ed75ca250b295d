import Horizon.Program.Compilation
import Horizon.Proofs.AnswerBlocks
import Horizon.Proofs.AnswerLines
import Horizon.Proofs.TextCuts

/-!
The believed state of a diagnosis. The fluents of an answer line have no white space in them, so
each of them makes one line with a choice and one with a penalty, and all of these lines stand
before the sections that depend on the step. The tuple that tells one cost from another holds the
fluent as it is rendered, and a rendering is read as one fluent only.
-/

namespace Horizon

namespace Fluent

/-- The fluent was read from a text without white space, as the words of an answer line are. -/
def Printed (f : Fluent) : Prop :=
  ∃ s, Fluent.read s = .ok f ∧ ∀ c ∈ s, Text.isBlank c = false

theorem Printed.wellFormed {f : Fluent} (h : f.Printed) : f.WellFormed := by
  obtain ⟨s, hread, -⟩ := h
  obtain ⟨hstep, hatom⟩ := wellFormed_of_read hread
  exact ⟨hstep, hatom⟩

theorem Printed.isSpaced {f : Fluent} (h : f.Printed) : f.isSpaced = false := by
  obtain ⟨s, hread, unspaced⟩ := h
  obtain ⟨last, n, hatom, -⟩ := (read_eq_ok_iff s f).mp hread
  have hsolid : Text.Solid s := Atom.solid_of_read unspaced
    ((Atom.read_eq_ok_iff s ⟨f.atom.name, f.atom.arguments ++ [last]⟩).mpr hatom)
  rw [hsolid.trim_eq] at hatom
  rw [isSpaced_eq_false_iff]
  intro t ht c hc
  have hin := (hatom.parts t (List.mem_append_left [last] ht)).2
  exact unspaced c (hin.subset hc)

theorem Printed.newline_not_mem_render {f : Fluent} (h : f.Printed) : '\n' ∉ f.render := by
  intro hmem
  have solid := solid_render h.wellFormed h.isSpaced
  have unblank := solid.no_blank '\n' hmem
  contradiction

theorem Printed.render_inj {f g : Fluent} (hf : f.Printed) (hg : g.Printed) :
    f.render = g.render ↔ f = g := by
  constructor
  · intro heq
    have hread := hf.wellFormed.read_render
    rw [heq, hg.wellFormed.read_render] at hread
    injection hread with hgf
    exact hgf.symm
  · rintro rfl
    rfl

end Fluent

namespace Program

/-- The weight of a kept fluent with the term that tells this cost from others. -/
def penaltyTuple (f : Fluent) : Text := "[1,".toList ++ f.render ++ "]".toList

def choiceLine (f : Fluent) : Text := "0\x7b".toList ++ f.render ++ "\x7d1.".toList

def penaltyLine (f : Fluent) : Text := ":~ ".toList ++ f.render ++ ". ".toList ++ penaltyTuple f

theorem choice_eq (f : Fluent) : choice f = choiceLine f ++ ['\n'] := by
  unfold choice choiceLine
  simp

theorem penalty_eq (f : Fluent) : penalty f = penaltyLine f ++ ['\n'] := by
  unfold penalty penaltyLine penaltyTuple
  simp

/-- The lines for the fluents of a state: the choices and then the penalties. -/
def softLines (state : AnswerSet) : List Text :=
  state.fluents.map choiceLine ++ state.fluents.map penaltyLine

theorem softState_eq_unlines (state : AnswerSet) :
    softState state = Text.unlines ("#program base.".toList :: softLines state) := by
  have hbase : baseHeader = "#program base.".toList ++ ['\n'] := rfl
  rw [softState, hbase, softLines, Text.unlines, List.flatMap_cons, List.flatMap_append,
    List.flatMap_map, List.flatMap_map, funext choice_eq, funext penalty_eq, List.append_assoc]

/-- None of the lines is a header. -/
theorem softLines_unheaded {state : AnswerSet} {l : Text} (h : l ∈ softLines state) :
    ¬ "#".toList <+: l := by
  rcases List.mem_append.mp h with h | h <;> obtain ⟨f, -, rfl⟩ := List.mem_map.mp h
  · simp [choiceLine, List.cons_prefix_cons]
  · simp [penaltyLine, List.cons_prefix_cons]

theorem newline_not_mem_softLines {state : AnswerSet} (h : ∀ f ∈ state.fluents, f.Printed) :
    ∀ l ∈ softLines state, '\n' ∉ l := by
  rw [softLines, List.forall_mem_append, List.forall_mem_map, List.forall_mem_map]
  constructor
  · intro f hf
    have hline := (h f hf).newline_not_mem_render
    simp [choiceLine, hline]
  · intro f hf
    have hline := (h f hf).newline_not_mem_render
    simp [penaltyLine, penaltyTuple, hline]

/-- A diagnosis of a state whose fluents were read from words starts with one choice for each of
them and then one penalty for each of them, in their order. The sections for the goal and for the
plan come after that. The penalties of two fluents have the same tuple only if the fluents are the
same. -/
theorem diagnosis_lines (state actions : AnswerSet) (goal : List Rule) (var : Text)
    (h : ∀ f ∈ state.fluents, ∃ s, Fluent.read s = .ok f ∧ ∀ c ∈ s, Text.isBlank c = false) :
    let rest := monitor goal actions var ++ ['\n']
    (Compilation.diagnosis state actions goal).text var =
      Text.unlines ("#program base.".toList ::
        (state.fluents.map choiceLine ++ state.fluents.map penaltyLine)) ++ '\n' :: rest ∧
    Text.lines ((Compilation.diagnosis state actions goal).text var) =
      "#program base.".toList ::
        (state.fluents.map choiceLine ++ state.fluents.map penaltyLine ++ [] :: Text.lines rest) ∧
    (∀ l ∈ state.fluents.map choiceLine ++ state.fluents.map penaltyLine, ¬ "#".toList <+: l) ∧
    (∃ checks replays, rest = "#program check(".toList ++ var ++ ").\n".toList ++ checks ++
      "#program step(".toList ++ var ++ ").\n".toList ++ replays) ∧
    ∀ (i j : Nat) (f g : Fluent), state.fluents[i]? = some f → state.fluents[j]? = some g →
      (penaltyTuple f = penaltyTuple g ↔ f = g) := by
  intro rest
  have htext : (Compilation.diagnosis state actions goal).text var =
      Text.unlines ("#program base.".toList :: softLines state) ++ '\n' :: rest := by
    change softState state ++ ['\n'] ++ monitor goal actions var ++ ['\n'] = _
    rw [softState_eq_unlines, List.append_assoc, List.append_assoc]
    rfl
  have hlines : ∀ l ∈ "#program base.".toList :: softLines state, '\n' ∉ l := by
    rw [List.forall_mem_cons]
    exact ⟨by decide, newline_not_mem_softLines h⟩
  refine ⟨htext, ?_, fun l => softLines_unheaded, ?_, ?_⟩
  · rw [htext, Text.lines_unlines_append hlines]
    rfl
  · refine ⟨declaration var ++ Rule.goalAll var goal ++ ['\n'],
      Rule.cumulativeAll var (replay actions) ++ ['\n'], ?_⟩
    unfold rest monitor plan header
    simp
  · intro i j f g hf hg
    have hi : f.Printed := h f (List.mem_of_getElem? hf)
    have hj : g.Printed := h g (List.mem_of_getElem? hg)
    rw [penaltyTuple, penaltyTuple, List.append_left_inj, List.append_right_inj,
      hi.render_inj hj]

def toldAt (n : Step) : Fluent :=
  ⟨⟨"told".toList, ["\"\x7d1.[\"".toList, "(1,-a)".toList]⟩, some n⟩

/-- The string has marks of both lines in it. One fluent is there twice, and another one differs
from it in the step only. -/
theorem diagnosis_lines_toldAt :
    let state : AnswerSet := ⟨[toldAt 0, toldAt 1, toldAt 0]⟩
    (∀ f ∈ state.fluents, ∃ s, Fluent.read s = .ok f ∧ ∀ c ∈ s, Text.isBlank c = false) ∧
    (∃ later, Text.lines ((Compilation.diagnosis state {} []).text ['n']) =
      ["#program base.".toList,
        "0\x7btold(\"\x7d1.[\",(1,-a),0)\x7d1.".toList,
        "0\x7btold(\"\x7d1.[\",(1,-a),1)\x7d1.".toList,
        "0\x7btold(\"\x7d1.[\",(1,-a),0)\x7d1.".toList,
        ":~ told(\"\x7d1.[\",(1,-a),0). [1,told(\"\x7d1.[\",(1,-a),0)]".toList,
        ":~ told(\"\x7d1.[\",(1,-a),1). [1,told(\"\x7d1.[\",(1,-a),1)]".toList,
        ":~ told(\"\x7d1.[\",(1,-a),0). [1,told(\"\x7d1.[\",(1,-a),0)]".toList] ++ later) ∧
    penaltyTuple (toldAt 0) ≠ penaltyTuple (toldAt 1) := by
  intro state
  have printed : ∀ f ∈ state.fluents, f.Printed := by
    have first : (toldAt 0).Printed :=
      ⟨"told(\"\x7d1.[\",(1,-a),00)".toList, rfl, by simp [Text.isBlank]⟩
    have second : (toldAt 1).Printed :=
      ⟨"told(\"\x7d1.[\",(1,-a),1)".toList, rfl, by simp [Text.isBlank]⟩
    intro f hf
    simp only [state, List.mem_cons, List.not_mem_nil, or_false] at hf
    rcases hf with rfl | rfl | rfl
    · exact first
    · exact second
    · exact first
  obtain ⟨-, lines, -, -, tuples⟩ := diagnosis_lines state {} [] ['n'] printed
  refine ⟨printed, ⟨_, lines⟩, ?_⟩
  rw [Ne, tuples 0 1 (toldAt 0) (toldAt 1) rfl rfl]
  decide

end Program
end Horizon
