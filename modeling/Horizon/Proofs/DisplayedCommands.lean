import Horizon.Engine.CommandLine
import Horizon.Proofs.AtomGrammar
import Horizon.Proofs.NumeralReading

/-!
Command lines as they are displayed. The program that is started and its arguments are written
with one space between them, and the redirection of the output stands before the number of
answers. No word has a space in it unless a path has one, so splitting what is displayed at its
spaces gives back what is started.
-/

namespace Horizon
namespace CommandLine

/-- What stands before the engine: nothing, or the program that limits its running time. -/
def wrapper (c : CommandLine) : List Text :=
  match c.timeout with
  | some seconds => ["timeout".toList, numeral seconds]
  | none => []

/-- All that is started, without the number of answers. -/
def front (c : CommandLine) : List Text := c.wrapper ++ c.executable :: c.leadingArgs

theorem spawned_eq_front (c : CommandLine) :
    c.spawned :: c.spawnedArgs = c.front ++ [numeral c.answers] := by
  cases h : c.timeout <;> simp [front, wrapper, spawned, spawnedArgs, engineArgs, h]

/-- What is displayed is what is started, with the redirection before the last word. -/
theorem render_eq_join (c : CommandLine) :
    c.render = Text.join [' '] (c.front ++ [['>'], c.output, numeral c.answers]) := by
  cases h : c.timeout <;>
    simp [render, front, wrapper, leadingArgs, Text.join_cons, h]

theorem solid_numeral (n : UInt32) : Text.Solid (numeral n) :=
  (Numeral.digits_write n.toNat).solid

theorem solid_wrapper (c : CommandLine) : ∀ w ∈ c.wrapper, Text.Solid w := by
  intro w hw
  unfold wrapper at hw
  cases h : c.timeout with
  | none => simp [h] at hw
  | some seconds =>
      simp only [h, List.mem_cons, List.not_mem_nil, or_false] at hw
      rcases hw with rfl | rfl
      · decide
      · exact solid_numeral seconds

theorem solid_leadingArgs {c : CommandLine} (program : Text.Solid c.program)
    (files : ∀ p ∈ c.files, Text.Solid p) : ∀ w ∈ c.leadingArgs, Text.Solid w := by
  intro w hw
  simp only [leadingArgs, List.mem_append, List.mem_cons, List.not_mem_nil, or_false] at hw
  rcases hw with ((rfl | rfl | rfl | rfl) | hw) | rfl
  · decide
  · decide
  · exact .append (by decide) (solid_numeral c.firstIncrement)
  · exact .append (by decide) (solid_numeral c.lastIncrement)
  · exact files w hw
  · exact program

/-- Where no path is empty or has white space in it, the displayed command is split at its spaces
into what is started, the program first and then its arguments, but with the redirection to the
output before the last argument, which is the number of answers. Splitting it into words does the
same. -/
theorem pieces_render (c : CommandLine)
    (h : ∀ p ∈ c.executable :: c.program :: c.output :: c.files, Text.Solid p) :
    let started := c.spawned :: c.spawnedArgs
    started.getLast? = some (numeral c.answers) ∧
    Text.pieces ' ' c.render = started.dropLast ++ [['>'], c.output, numeral c.answers] ∧
    Text.words c.render = started.dropLast ++ [['>'], c.output, numeral c.answers] := by
  intro started
  have hstarted : started = c.front ++ [numeral c.answers] := c.spawned_eq_front
  simp only [List.forall_mem_cons] at h
  obtain ⟨executable, program, output, files⟩ := h
  have solid : ∀ w ∈ c.front ++ [['>'], c.output, numeral c.answers], Text.Solid w := by
    simp only [front, List.forall_mem_append, List.forall_mem_cons]
    refine ⟨⟨c.solid_wrapper, executable, solid_leadingArgs program files⟩, ?_, output,
      solid_numeral c.answers, by simp⟩
    decide
  rw [hstarted, List.dropLast_concat, c.render_eq_join]
  exact ⟨List.getLast?_concat, Text.pieces_join (by simp) solid, Text.words_join solid⟩

def limitedRun : CommandLine where
  timeout := some 30
  executable := "./>engine".toList
  firstIncrement := 1
  lastIncrement := 5
  files := ["/q/domain.asp".toList, ">".toList]
  program := "/q/plan.asp".toList
  output := "/q/plan_output.txt".toList
  answers := 0

/-- The redirection is found behind paths that look like one. -/
theorem pieces_render_limitedRun :
    (∀ p ∈ limitedRun.executable :: limitedRun.program :: limitedRun.output :: limitedRun.files,
      Text.Solid p) ∧
    Text.pieces ' ' limitedRun.render =
      ["timeout".toList, "30".toList, "./>engine".toList, "--warn".toList,
        "no-atom-undefined".toList, "-cimin=1".toList, "-cimax=5".toList, "/q/domain.asp".toList,
        ">".toList, "/q/plan.asp".toList, ">".toList, "/q/plan_output.txt".toList,
        "0".toList] := by
  have solid : ∀ p ∈ limitedRun.executable :: limitedRun.program :: limitedRun.output ::
      limitedRun.files, Text.Solid p := by
    decide
  exact ⟨solid, (pieces_render limitedRun solid).2.1⟩

end CommandLine
end Horizon
