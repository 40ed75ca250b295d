import Horizon.Engine.Run
import Horizon.Proofs.FileWrites

/-!
Runs of the engine, part by part. Everything up to the start of the engine is one part, and its
start, its end and the reading of its output are the other. A run succeeds when both do, and a
state that both keep is the state that the run leaves.
-/

namespace Horizon

instance decidableEqExcept {ε α : Type} [DecidableEq ε] [DecidableEq α] : DecidableEq (Except ε α)
  | .error e, .error e' => decidable_of_iff (e = e') (by rw [Except.error.injEq])
  | .ok a, .ok a' => decidable_of_iff (a = a') (by rw [Except.ok.injEq])
  | .error _, .ok _ => isFalse (by simp)
  | .ok _, .error _ => isFalse (by simp)

namespace Outcome

variable {σ α β γ : Type} {o o' : Outcome σ α} {next next' : α → σ → Outcome σ β}

/-- An outcome without its records. -/
def core (o : Outcome σ α) : Except EngineError α × σ := (o.result, o.state)

theorem core_andThen (o : Outcome σ α) (next : α → σ → Outcome σ β) :
    (o.andThen next).core =
      match o.result with
      | .error e => (.error e, o.state)
      | .ok a => (next a o.state).core := by
  unfold andThen
  cases o.result <;> rfl

/-- Records make no difference to the rest of a run. -/
theorem core_report_andThen (x : Traced Unit) (next : Unit → σ → Outcome σ β) (s : σ) :
    ((report x s).andThen next).core = (next () s).core := rfl

theorem core_andThen_congr (h : o.core = o'.core)
    (hnext : ∀ a s, (next a s).core = (next' a s).core) :
    (o.andThen next).core = (o'.andThen next').core := by
  obtain ⟨hresult, hstate⟩ := Prod.ext_iff.mp h
  change o.result = o'.result at hresult
  change o.state = o'.state at hstate
  rw [core_andThen, core_andThen, hresult, hstate]
  cases o'.result with
  | error e => rfl
  | ok a => exact hnext a _

theorem core_andThen_assoc (o : Outcome σ α) (f : α → σ → Outcome σ β) (g : β → σ → Outcome σ γ) :
    ((o.andThen f).andThen g).core = (o.andThen fun a s => (f a s).andThen g).core := by
  unfold andThen
  cases o.result with
  | error e => rfl
  | ok a => cases h : (f a o.state).result <;> simp [core, h]

variable {op : FileOp α} {failure : FileError → EngineError} {t : FileTree}

@[simp] theorem state_ofFileOp : (ofFileOp op failure t).state = (op t).2 := by
  unfold ofFileOp
  rcases op t with ⟨_ | a, u⟩ <;> rfl

theorem result_ofFileOp : (ofFileOp op failure t).result = (op t).1.mapError failure := by
  unfold ofFileOp
  rcases op t with ⟨_ | a, u⟩ <;> rfl

theorem result_ofFileOp_ok_iff {a : α} :
    (ofFileOp op failure t).result = .ok a ↔ (op t).1 = .ok a := by
  unfold ofFileOp
  rcases op t with ⟨_ | a, u⟩ <;> simp

/-- The outcome leaves a state of the one kind, and if it succeeds its result is with it. -/
def Ends (o : Outcome σ α) (P : σ → Prop) (S : α → σ → Prop) : Prop :=
  P o.state ∧ ∀ a, o.result = .ok a → S a o.state

theorem Ends.andThen {P : σ → Prop} {S : α → σ → Prop} {T : β → σ → Prop} (h : o.Ends P S)
    (hnext : ∀ a s, S a s → (next a s).Ends P T) : (o.andThen next).Ends P T := by
  obtain ⟨hstate, hresult⟩ := h
  unfold Outcome.andThen
  cases ho : o.result with
  | error e => exact ⟨hstate, nofun⟩
  | ok a => exact hnext a _ (hresult a ho)

theorem ends_ofFileOp {P : FileTree → Prop} {S : α → FileTree → Prop} (hstate : P (op t).2)
    (hresult : ∀ a, (op t).1 = .ok a → S a (op t).2) : (ofFileOp op failure t).Ends P S := by
  unfold Ends
  rw [state_ofFileOp]
  exact ⟨hstate, fun a ha => hresult a (result_ofFileOp_ok_iff.mp ha)⟩

end Outcome

/-- A program that changes nothing but the place that takes its output. -/
def Host.WritesOutputOnly (host : Host) : Prop :=
  ∀ launch t l, l ≠ launch.output → (host launch t).2.at? l = t.at? l

/-- What a program prints and how it ends, or why it cannot be started. -/
abbrev Behaviour := Path → List Text → FileTree → Except FileError (Bytes × Execution)

/-- The host on which programs have the behaviour. -/
def Behaviour.host (b : Behaviour) : Host := fun launch => FileOp.change fun t =>
  (b launch.program launch.args t).map fun printed =>
    (printed.2, t.overwrite launch.output printed.1)

theorem Behaviour.host_apply (b : Behaviour) (launch : Launch) (t : FileTree) :
    b.host launch t =
      match b launch.program launch.args t with
      | .error e => (.error e, t)
      | .ok printed => (.ok printed.2, t.overwrite launch.output printed.1) := by
  unfold host FileOp.change
  dsimp only
  cases b launch.program launch.args t <;> rfl

theorem Behaviour.writesOutputOnly (b : Behaviour) : b.host.WritesOutputOnly := by
  intro launch t l hl
  rw [b.host_apply]
  cases b launch.program launch.args t with
  | error e => rfl
  | ok printed => exact FileTree.at?_overwrite_of_ne hl printed.1

/-- The names of the files that a request has of its own, the program and the output. -/
def Request.ownNames (request : Request) : List Text :=
  [request.label ++ ".asp".toList, request.label ++ "_output.txt".toList]

theorem Request.isName_of_mem_ownNames {request : Request} (hlabel : '/' ∉ request.label)
    {name : Text} (h : name ∈ request.ownNames) : Path.IsName name := by
  rw [ownNames] at h
  simp only [List.mem_cons, List.not_mem_nil, or_false] at h
  rcases h with rfl | rfl <;>
    refine ⟨by simp, ?_, ?_, by simp [hlabel]⟩ <;>
    exact fun h => absurd (congrArg List.length h) (by simp)

namespace Installation

open Outcome FileTree

/-- The background files that a request has staged. -/
def sources (i : Installation) (request : Request) : List Path :=
  i.config.linkFiles ++ if request.useCopyFiles then i.config.copyFiles else []

/-- Everything that is done before the engine is started. It gives the command line, and the place
that takes the output. -/
def launching (i : Installation) (request : Request) (t : FileTree) :
    Outcome FileTree (CommandLine × Location) :=
  (ofFileOp (i.stage request) .stage t).andThen fun staged t =>
    let c := CommandLine.ofRequest i.config request staged.path staged.files
    (ofFileOp (writeText c.program (request.program ++ ['\n'])) (.writeProgram c.program) t).andThen
      fun _ t =>
        (ofFileOp (openForWriting c.output false) (.output c.output) t).andThen
          fun place t => ⟨.ok (c, place), [], t⟩

/-- The program that is started, with its arguments and the place that takes its output. -/
def launchOf (launched : CommandLine × Location) : Launch :=
  ⟨launched.1.spawned, launched.1.spawnedArgs, launched.2⟩

/-- Everything from the start of the engine on. -/
def finishing (host : Host) (launched : CommandLine × Location) (t : FileTree) :
    Outcome FileTree Transcript :=
  (ofFileOp (host (launchOf launched)) (.spawn launched.1.render) t).andThen fun execution t =>
    capture launched.1 execution.status t

theorem state_capture (c : CommandLine) (status : ExitStatus) (t : FileTree) :
    (capture c status t).state = t := by
  unfold capture
  split
  · rfl
  · cases t.readText c.output <;> rfl

/-- Once the engine has ended, nothing more is changed. -/
theorem state_finishing (host : Host) (launched : CommandLine × Location) (t : FileTree) :
    (finishing host launched t).state = (host (launchOf launched) t).2 := by
  unfold finishing ofFileOp andThen
  rcases host (launchOf launched) t with ⟨e | execution, u⟩
  · rfl
  · exact state_capture launched.1 execution.status u

/-- Up to its records, a run is the one part and then the other. -/
theorem core_solve (host : Host) (i : Installation) (request : Request) (t : FileTree) :
    (solve host i request t).core =
      ((i.launching request t).andThen (finishing host)).core := by
  unfold solve launching
  rw [core_andThen_assoc]
  refine core_andThen_congr rfl fun staged t => ?_
  rw [core_report_andThen, core_andThen_assoc]
  refine core_andThen_congr rfl fun _ t => ?_
  rw [core_report_andThen, execute, core_report_andThen, core_andThen_assoc]
  refine core_andThen_congr rfl fun place t => ?_
  rw [core_andThen _ (finishing host)]
  refine core_andThen_congr rfl fun execution t => ?_
  exact core_report_andThen ..

/-- The state that a run leaves is the one in which the engine would have been started, or the one
that the engine leaves. -/
theorem state_solve_cases (host : Host) (i : Installation) (request : Request) (t : FileTree) :
    (solve host i request t).state = (i.launching request t).state ∨
      ∃ launched, (i.launching request t).result = .ok launched ∧
        (solve host i request t).state =
          (host (launchOf launched) (i.launching request t).state).2 := by
  have hcore := congrArg Prod.snd (core_solve host i request t)
  change (solve host i request t).state = _ at hcore
  rw [core_andThen] at hcore
  cases hr : (i.launching request t).result with
  | error e =>
      rw [hr] at hcore
      exact .inl hcore
  | ok launched =>
      rw [hr] at hcore
      exact .inr ⟨launched, rfl, hcore.trans (state_finishing host launched _)⟩

/-- An engine that is started in one directory and shares a file with its runs. -/
def sharing (file : Path) : Installation :=
  { config := { executable := "/e".toList, linkFiles := [file] }, directory := "/q".toList }

def plainRequest : Request := ⟨['p', '.'], 0, 0, "query".toList, 0, false⟩

end Installation
end Horizon
