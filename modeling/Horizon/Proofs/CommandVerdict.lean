import Horizon.Command
import Horizon.Proofs.OutputReadings
import Horizon.Proofs.PlanReplay
import Horizon.Proofs.StandardOutput

/-!
When the command reports that there are no answers. It says so exactly if the list of answers it
has read is empty, and there are three reasons for that: the engine reports unsatisfiability, no
answer in its output can be read, or an interruption takes the only one. Before the answers there
may be a greeting, and what the run of the engine has written if a path leads it there.
-/

namespace Horizon

namespace Reading

theorem dropLast_eq_nil_iff {α : Type} {xs : List α} :
    xs.dropLast = [] ↔ xs = [] ∨ ∃ x, xs = [x] := by
  rcases xs with _ | ⟨x, _ | ⟨y, xs⟩⟩ <;> simp

/-- No answer is left of an output if it reports unsatisfiability, if none of its answers can be
read, or if it is that of an interrupted run with one answer that can be. -/
theorem atomGroups_eq_nil_iff (levels : Levels) (text : Text) :
    (atomGroups .discard levels text).value = [] ↔
      .unsatisfiable ∈ Event.scan text ∨ readable atoms (Event.scan text) = [] ∨
        .interrupted ∈ Event.scan text ∧ ∃ group, readable atoms (Event.scan text) = [group] := by
  rw [atomGroups, value_collect]
  by_cases hunsat : .unsatisfiable ∈ Event.scan text
  · simp [hunsat]
  · rw [considered_eq_self hunsat]
    by_cases hcut : .interrupted ∈ Event.scan text
    · simp [hunsat, hcut, dropLast_eq_nil_iff]
    · simp [hunsat, hcut]

end Reading

namespace Command

theorem renderGroups_eq_iff (groups : List (List Atom)) :
    renderGroups groups = "UNSATISFIABLE\n".toList ↔ groups = [] := by
  cases groups with
  | nil => exact iff_of_true rfl rfl
  | cons group groups =>
      refine iff_of_false (fun h => ?_) nofun
      have first : some '\x7b' = some 'U' := congrArg List.head? h
      cases first

theorem exists_of_map_eq_ok {ε α β : Type} {f : α → β} {x : Except ε α} {b : β}
    (h : x.map f = .ok b) : ∃ a, f a = b := by
  cases x with
  | error e => cases h
  | ok a =>
      cases h
      exact ⟨a, rfl⟩

/-- The environment sets no policy and names no background files. -/
theorem defaults_of_configuration {env : Environment} {c : Configuration}
    (h : configuration env = .ok c) :
    c.policy = .discard ∧ c.engine.linkFiles = [] ∧ c.engine.copyFiles = [] := by
  obtain ⟨maxTime, rfl⟩ := exists_of_map_eq_ok h
  exact ⟨rfl, rfl, rfl⟩

/-- A task is put together from its three parts if all of them can be made out. -/
theorem prepare_eq_ok_iff {i : Invocation} {t : FileTree} {task : Task} :
    prepare i t = .ok task ↔
      ∃ n read c, step i.args = .ok n ∧ source i t = .ok read ∧
        configuration i.environment = .ok c ∧ ⟨Query.plain read.1 n, c, read.2⟩ = task := by
  unfold prepare
  cases step i.args with
  | error e => simp [bind, Except.bind]
  | ok n =>
      cases source i t with
      | error e => simp [bind, Except.bind]
      | ok read =>
          cases configuration i.environment <;> simp [bind, Except.bind, pure, Except.pure]

/-- A task asks for all answers as plain atoms, with the policy that is the default. -/
theorem exists_of_prepare {i : Invocation} {t : FileTree} {task : Task}
    (h : prepare i t = .ok task) :
    (∃ program n, task.query = Query.plain program n) ∧
      task.configuration.policy = .discard ∧ task.configuration.engine.linkFiles = [] ∧
      task.configuration.engine.copyFiles = [] := by
  obtain ⟨n, read, c, -, -, hconf, rfl⟩ := prepare_eq_ok_iff.mp h
  exact ⟨⟨read.1, n, rfl⟩, defaults_of_configuration hconf⟩

/-- The request that a task is made into. -/
def requested (i : Invocation) (task : Task) : Request :=
  ((task.configuration.reasoner (levels i.environment)).request task.query).value

/-- The run of the engine for a task. -/
def solved (host : Inheritance → Host) (i : Invocation) (task : Task) (t : FileTree) :
    Outcome FileTree Transcript :=
  Installation.solve (host ⟨i.environment, task.input⟩)
    (task.configuration.installation (levels i.environment)) (requested i task) t

/-- What is on the standard output before the answers. -/
def opening (host : Inheritance → Host) (i : Invocation) (task : Task) (t : FileTree) : Text :=
  greeting i ++ Record.outputAll (solved host i task t).records

/-- A file of the run is the standard output, where its path leads once the directory for it is
there. -/
def LeadsOut (task : Task) (t : FileTree) (name : Text) : Prop :=
  let dir := task.configuration.workingDirectory
  (Staging.prepared t dir).IsOutput (Path.join dir name)

/-- The program of the run or its output goes to the standard output. -/
def ReachesOutput (task : Task) (t : FileTree) : Prop :=
  ∃ name ∈ ["query.asp".toList, "query_output.txt".toList], LeadsOut task t name

section Runs

variable {host : Inheritance → Host} {i : Invocation} {t : FileTree} {task : Task}
  (hprepare : prepare i t = .ok task)
include hprepare

theorem label_requested : (requested i task).label = "query".toList := by
  obtain ⟨⟨program, n, hquery⟩, -⟩ := exists_of_prepare hprepare
  rw [requested, hquery]
  rfl

/-- There are no background files, so the directory is all that is staged. -/
theorem stage_requested :
    ((task.configuration.installation (levels i.environment)).stage (requested i task) t).2 =
      Staging.prepared t task.configuration.workingDirectory := by
  obtain ⟨-, -, hlink, hcopy⟩ := exists_of_prepare hprepare
  simp only [Configuration.installation, Installation.stage, hlink, hcopy, ite_self]
  exact Staging.stage_nil ..

/-- Before the answers there is nothing but the greeting, unless a path leads there. -/
theorem opening_eq_greeting (h : ¬ ReachesOutput task t) :
    opening host i task t = greeting i := by
  have quiet : (solved host i task t).IsQuiet := by
    refine Installation.isQuiet_solve _ _ _ fun name hname hout => h ⟨name, ?_, ?_⟩
    · rwa [Request.ownNames, label_requested hprepare] at hname
    · rwa [stage_requested hprepare] at hout
  unfold Outcome.IsQuiet at quiet
  rw [opening, quiet, List.append_nil]

variable (host) in
theorem outputAll_ask :
    Record.outputAll (task.configuration.ask (host ⟨i.environment, task.input⟩)
        (levels i.environment) task.query t).records =
      Record.outputAll (solved host i task t).records := by
  obtain ⟨⟨program, n, hquery⟩, -⟩ := exists_of_prepare hprepare
  rw [solved, requested, Configuration.ask, hquery]
  exact Reasoner.outputAll_ask_atoms ..

variable (host) in
/-- The reply to the task is read from what its run of the engine gives. -/
theorem result_ask :
    (task.configuration.ask (host ⟨i.environment, task.input⟩)
        (levels i.environment) task.query t).result =
      (solved host i task t).result.map fun transcript =>
        .atomGroups (Reading.atomGroups .discard (levels i.environment) transcript.text).value := by
  obtain ⟨⟨program, n, hquery⟩, hpolicy, -⟩ := exists_of_prepare hprepare
  rw [solved, requested, Configuration.ask, Reasoner.result_ask, hquery, ← hpolicy]
  rfl

theorem run_of_solved {transcript : Transcript}
    (hsolved : (solved host i task t).result = .ok transcript) :
    (run host i t).code = 0 ∧
      (run host i t).output = opening host i task t ++
        renderGroups (Reading.atomGroups .discard (levels i.environment) transcript.text).value := by
  have answered := result_ask host hprepare
  rw [hsolved, Except.map] at answered
  simp only [run, hprepare, answered, outputAll_ask host hprepare, renderReply, opening, and_self]

theorem run_of_failed {e : EngineError} (hsolved : (solved host i task t).result = .error e) :
    (run host i t).code = 1 ∧ (run host i t).output = opening host i task t := by
  have failed := result_ask host hprepare
  rw [hsolved, Except.map] at failed
  simp only [run, hprepare, failed, outputAll_ask host hprepare, opening, and_self]

end Runs

theorem append_renderGroups_eq_iff (before : Text) (groups : List (List Atom)) :
    before ++ renderGroups groups = "UNSATISFIABLE\n".toList ↔ before = [] ∧ groups = [] := by
  cases groups with
  | nil => exact List.append_left_eq_self.trans (and_iff_left rfl).symm
  | cons group groups =>
      refine iff_of_false (fun h => ?_) nofun
      have brace : '\x7b' ∈ before ++ renderGroups (group :: groups) :=
        List.mem_append_right _ (List.mem_append_left _ List.mem_cons_self)
      rw [h] at brace
      exact absurd brace (by decide)

/-- For every run in which the engine does not fail, the command reports that there are no
answers in exactly three cases. The report is all that is on the standard output, unless something
is there before the answers. -/
theorem run_output_iff {host : Inheritance → Host} {i : Invocation} {t : FileTree} {task : Task}
    {transcript : Transcript} (hprepare : prepare i t = .ok task)
    (hsolved : (solved host i task t).result = .ok transcript) :
    let nothingLeft := .unsatisfiable ∈ Event.scan transcript.text ∨
      Reading.readable Reading.atoms (Event.scan transcript.text) = [] ∨
      .interrupted ∈ Event.scan transcript.text ∧
        ∃ group, Reading.readable Reading.atoms (Event.scan transcript.text) = [group]
    (run host i t).code = 0 ∧
    (∃ answers, (run host i t).output = opening host i task t ++ answers ∧
      (answers = "UNSATISFIABLE\n".toList ↔ nothingLeft)) ∧
    ((run host i t).output = "UNSATISFIABLE\n".toList ↔
      opening host i task t = [] ∧ nothingLeft) ∧
    (¬ ReachesOutput task t → opening host i task t = greeting i) := by
  intro nothingLeft
  obtain ⟨hcode, houtput⟩ := run_of_solved hprepare hsolved
  have empty := Reading.atomGroups_eq_nil_iff (levels i.environment) transcript.text
  refine ⟨hcode, ⟨_, houtput, ?_⟩, ?_, opening_eq_greeting hprepare⟩
  · rw [renderGroups_eq_iff, empty]
  · rw [houtput, append_renderGroups_eq_iff, empty]

/-- Starts engines that print the text and succeed. -/
def printing (text : Text) (_ : Inheritance) : Host :=
  Behaviour.host fun _ _ _ => .ok (Utf8.encode text, { status := .code 0 })

/-- The task of a command without arguments, input and environment. -/
def bareTask : Task := ⟨Query.plain [] 0, Configuration.default defaultTemporary, []⟩

def stopped : Text := "Answer: 1\np(1)\nINTERRUPTED : 1\n".toList

/-- The only answer of a run that is stopped is not counted. -/
theorem run_output_stopped :
    .unsatisfiable ∉ Event.scan stopped ∧ (run (printing stopped) {} {}).code = 0 ∧
      (run (printing stopped) {} {}).output = "UNSATISFIABLE\n".toList := by
  have hprepare : prepare {} {} = .ok bareTask := rfl
  have hsolved : (solved (printing stopped) {} bareTask {}).result =
      .ok ⟨"/tmp/tempo/query_output.txt".toList, stopped⟩ := by decide +kernel
  obtain ⟨hcode, -, hiff, -⟩ := run_output_iff hprepare hsolved
  have before : opening (printing stopped) {} bareTask {} = [] := by decide +kernel
  have one : ∃ group, Reading.readable Reading.atoms (Event.scan stopped) = [group] :=
    List.length_eq_one_iff.mp (by decide +kernel)
  refine ⟨by decide +kernel, hcode, hiff.mpr ⟨before, .inr (.inr ⟨by decide +kernel, one⟩)⟩⟩

def unsettled : Text := "UNKNOWN\n".toList

/-- Nothing is known of the answers, and it is reported that there are none. -/
theorem run_output_unsettled :
    .unsatisfiable ∉ Event.scan unsettled ∧
      (solved (printing unsettled) {} bareTask {}).result =
        .ok ⟨"/tmp/tempo/query_output.txt".toList, unsettled⟩ ∧
      (run (printing unsettled) {} {}).output = "UNSATISFIABLE\n".toList := by
  decide +kernel

end Command
end Horizon
