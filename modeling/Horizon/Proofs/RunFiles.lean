import Horizon.Engine.CommandLine

/-!
The files of a run. The program and the output of a request are named by its label and stand in
the directory where it is staged. A label that is no absolute path is put behind the path of the
directory as it is, so it can be told from either name, and the endings tell the two apart.
-/

namespace Horizon

namespace Path

/-- What stands between the path of a directory and a name in it: a slash, unless the path is empty
or ends in one. -/
def separator (dir : Path) : Text :=
  if dir = [] ∨ dir.getLast? = some '/' then [] else ['/']

theorem join_eq_append {p : Path} (dir : Path) (h : isAbsolute p = false) :
    join dir p = dir ++ separator dir ++ p := by
  rw [join, h, separator]
  rcases List.eq_nil_or_concat dir with rfl | ⟨r, c, rfl⟩
  · rfl
  · by_cases hc : c = '/' <;> simp [hc]

theorem isAbsolute_append {label ending : Text} (hlabel : label.head? ≠ some '/')
    (hending : isAbsolute ending = false) : isAbsolute (label ++ ending) = false := by
  cases label with
  | nil => exact hending
  | cons c label => simpa [isAbsolute] using hlabel

/-- Where a file of a run is: the label goes between a fixed beginning and a fixed ending. -/
theorem join_label {label ending : Text} (dir : Path) (hlabel : label.head? ≠ some '/')
    (hending : isAbsolute ending = false) :
    join dir (label ++ ending) = dir ++ separator dir ++ label ++ ending := by
  rw [join_eq_append dir (isAbsolute_append hlabel hending), ← List.append_assoc]

end Path

namespace CommandLine

open Horizon.Path

variable {config : EngineConfig} {request : Request} {dir : Path} {files : List Path}

theorem program_eq (h : request.label.head? ≠ some '/') :
    (ofRequest config request dir files).program =
      dir ++ separator dir ++ request.label ++ ".asp".toList :=
  join_label dir h rfl

theorem output_eq (h : request.label.head? ≠ some '/') :
    (ofRequest config request dir files).output =
      dir ++ separator dir ++ request.label ++ "_output.txt".toList :=
  join_label dir h rfl

/-- The program of one run and the output of another end in different characters. -/
theorem program_ne_output (s t : Text) : s ++ ".asp".toList ≠ t ++ "_output.txt".toList := by
  intro h
  have last := congrArg List.getLast? h
  simp at last

/-- In one directory, runs have the same program file if and only if they have the same label, and
the same output file likewise, whatever else they are asked and however the engine is set up. No
run has its program where any of them has its output. -/
theorem files_eq_iff (config config' : EngineConfig) (request request' : Request) (dir : Path)
    (files files' : List Path) (h : request.label.head? ≠ some '/')
    (h' : request'.label.head? ≠ some '/') :
    let c := ofRequest config request dir files
    let c' := ofRequest config' request' dir files'
    c.program = dir ++ separator dir ++ request.label ++ ".asp".toList ∧
    c.output = dir ++ separator dir ++ request.label ++ "_output.txt".toList ∧
    (c.program = c'.program ↔ request.label = request'.label) ∧
    (c.output = c'.output ↔ request.label = request'.label) ∧
    c.program ≠ c'.output := by
  intro c c'
  have hprogram : c.program = dir ++ separator dir ++ request.label ++ ".asp".toList :=
    program_eq h
  have hprogram' : c'.program = dir ++ separator dir ++ request'.label ++ ".asp".toList :=
    program_eq h'
  have houtput : c.output = dir ++ separator dir ++ request.label ++ "_output.txt".toList :=
    output_eq h
  have houtput' : c'.output = dir ++ separator dir ++ request'.label ++ "_output.txt".toList :=
    output_eq h'
  refine ⟨hprogram, houtput, ?_, ?_, ?_⟩
  · rw [hprogram, hprogram', List.append_left_inj, List.append_right_inj]
  · rw [houtput, houtput', List.append_left_inj, List.append_right_inj]
  · rw [hprogram, houtput']
    exact program_ne_output _ _

/-- A run whose label is the name of another run's output has files of its own. -/
theorem files_eq_iff_nested :
    let run := fun label => ofRequest {} ⟨[], 0, 0, label, 0, true⟩ "/q/".toList []
    (run "plan_output.txt".toList).program = "/q/plan_output.txt.asp".toList ∧
    (run "plan".toList).output = "/q/plan_output.txt".toList ∧
    (run "plan_output.txt".toList).program ≠ (run "plan".toList).program ∧
    (run "plan_output.txt".toList).program ≠ (run "plan".toList).output := by
  intro run
  have h := files_eq_iff {} {} ⟨[], 0, 0, "plan_output.txt".toList, 0, true⟩
    ⟨[], 0, 0, "plan".toList, 0, true⟩ "/q/".toList [] [] (by decide) (by decide)
  obtain ⟨hprogram, -, hsame, -, hapart⟩ := h
  exact ⟨hprogram, rfl, fun heq => absurd (hsame.mp heq) (by decide), hapart⟩

end CommandLine
end Horizon
