import Horizon.Proofs.EngineRuns
import Horizon.Proofs.QueryReplies
import Horizon.Proofs.StagingChanges

/-!
What a run puts on the standard output. Records of a level go to the error stream, so asking for a
program's atoms puts there no more than the run of the engine does. The run writes two files, and
what it writes is on the standard output only if one of their paths leads there.
-/

namespace Horizon

theorem Record.outputAll_append (records records' : List Record) :
    outputAll (records ++ records') = outputAll records ++ outputAll records' :=
  List.flatMap_append

namespace Traced

variable {α β : Type}

/-- The computation puts nothing on the standard output. -/
def IsQuiet (x : Traced α) : Prop := Record.outputAll x.records = []

theorem isQuiet_pure (a : α) : (pure a : Traced α).IsQuiet := rfl

theorem IsQuiet.bind {x : Traced α} {f : α → Traced β} (hx : x.IsQuiet)
    (hf : (f x.value).IsQuiet) : (x >>= f).IsQuiet := by
  unfold IsQuiet at hx hf ⊢
  rw [records_bind, Record.outputAll_append, hx, hf, List.append_nil]

theorem isQuiet_note (levels : Levels) (level : Level) (text : Text) :
    (note levels level text).IsQuiet := by
  unfold IsQuiet note
  split <;> rfl

end Traced

namespace Reading

open Traced

variable {α : Type} (policy : Policy) (read : Text → Except ReadError α) (levels : Levels)

theorem isQuiet_finish (found : List α) (interrupted : Bool) :
    (finish levels found interrupted).IsQuiet := by
  cases interrupted with
  | false => rfl
  | true =>
      cases found with
      | nil => rfl
      | cons a earlier => exact (isQuiet_note ..).bind (isQuiet_pure _)

theorem isQuiet_collect (found : List α) (interrupted : Bool) (es : List Event) :
    (collect policy read levels found interrupted es).IsQuiet := by
  induction es generalizing found interrupted with
  | nil => exact isQuiet_finish levels found interrupted
  | cons e es ih =>
      cases e with
      | unsatisfiable =>
          cases policy with
          | discard => rfl
          | keep => exact isQuiet_finish levels found interrupted
      | interrupted | unknown | optimization _ => exact ih _ _
      | answer content =>
          simp only [collect]
          cases read content with
          | ok a => exact ih _ _
          | error e => exact (isQuiet_note ..).bind (ih _ _)

end Reading

/-- When a program's atoms are asked for, all that is on the standard output is the engine's. -/
theorem Reasoner.outputAll_ask_atoms {σ : Type} (r : Reasoner) (engine : Engine σ) (text : Text)
    (step : Step) (label : Text) (answers : UInt32) (s : σ) :
    let q := Query.atoms text step label answers
    Record.outputAll (r.ask engine q s).records =
      Record.outputAll (engine (r.request q).value s).records := by
  intro q
  have request : (r.request q).IsQuiet := rfl
  have reply : ∀ text, (r.reply text q).IsQuiet := fun text =>
    (Reading.isQuiet_collect r.policy Reading.atoms r.levels [] false _).bind
      (Traced.isQuiet_pure _)
  have captured : ∀ path, (Traced.note r.levels .invoke
      (captured (r.request q).value.label path)).IsQuiet := fun _ => Traced.isQuiet_note ..
  unfold Traced.IsQuiet at request reply captured
  simp only [ask]
  cases (engine (r.request q).value s).result with
  | error e => simp [Record.outputAll_append, request]
  | ok t => simp [Record.outputAll_append, request, reply, captured]

namespace FileTree

variable {t u : FileTree} {p q : Path} {l : Location}

/-- The path leads to the standard output of the process that opens it. -/
def IsOutput (t : FileTree) (p : Path) : Prop := t.status .target p = .ok (.descriptor 1)

theorem IsOutput.of_outlined (w : u.Outlined t) (h : u.IsOutput p) : t.IsOutput p := by
  obtain ⟨l, hexisting, he⟩ := status_ok_iff.mp h
  have hplace : t.at? l = some (.descriptor 1) := by
    rcases w.keeps l with hplain | hl
    · obtain ⟨_, _, hfile⟩ := hplain _ he
      cases hfile
    · exact hl.trans he
  obtain ⟨hchecked, hresolves⟩ := existing_ok_iff.mp hexisting
  refine status_ok_iff.mpr ⟨l, existing_ok_iff.mpr ⟨hchecked, ?_⟩, hplace⟩
  rw [w.start_eq]
  exact hresolves.of_outlined w nofun (.inr rfl) hplace nofun nofun

/-- No path is made to lead to the standard output by what is written to a file. -/
theorem IsOutput.of_openForWriting {executable : Bool}
    (hopen : openForWriting p executable t = (.ok l, u)) (h : u.IsOutput q) : t.IsOutput q := by
  rcases openForWriting_ok_cases hopen with ⟨-, rfl⟩ | hwrites
  · exact h
  · exact h.of_outlined hwrites.outlined_back

theorem IsOutput.of_writeText {text : Text} (hwrite : writeText p text t = (.ok (), u))
    (h : u.IsOutput q) : t.IsOutput q := by
  rcases writeBytes_ok_cases hwrite with rfl | ⟨l, hwrites⟩
  · exact h
  · exact h.of_outlined hwrites.outlined_back

end FileTree

namespace Outcome

variable {σ α β : Type}

/-- The part of a run puts nothing on the standard output. -/
def IsQuiet (o : Outcome σ α) : Prop := Record.outputAll o.records = []

theorem IsQuiet.andThen {o : Outcome σ α} {next : α → σ → Outcome σ β} (ho : o.IsQuiet)
    (hnext : ∀ a, o.result = .ok a → (next a o.state).IsQuiet) : (o.andThen next).IsQuiet := by
  unfold IsQuiet at ho hnext ⊢
  unfold Outcome.andThen
  cases h : o.result with
  | error e => exact ho
  | ok a => rw [Record.outputAll_append, ho, hnext a h, List.append_nil]

theorem isQuiet_report {x : Traced Unit} (h : x.IsQuiet) (s : σ) : (report x s).IsQuiet := h

theorem isQuiet_ofFileOp (op : FileOp α) (failure : FileError → EngineError) (t : FileTree) :
    (ofFileOp op failure t).IsQuiet := by
  unfold ofFileOp
  rcases op t with ⟨_ | a, u⟩ <;> rfl

/-- After a file operation that succeeds, the run goes on with what it gives and leaves. -/
theorem isQuiet_ofFileOp_andThen {op : FileOp α} {failure : FileError → EngineError} {t : FileTree}
    {next : α → FileTree → Outcome FileTree β}
    (hnext : ∀ a u, op t = (.ok a, u) → (next a u).IsQuiet) :
    ((ofFileOp op failure t).andThen next).IsQuiet := by
  refine (isQuiet_ofFileOp op failure t).andThen fun a ha => ?_
  rw [state_ofFileOp]
  exact hnext a _ (Prod.ext (result_ofFileOp_ok_iff.mp ha) rfl)

end Outcome

namespace Installation

open FileTree Outcome Staging

variable {t : FileTree} {p : Path}

theorem isQuiet_streamed (h : ¬ t.IsOutput p) (text : Text) : (streamed t p text).IsQuiet := by
  unfold streamed
  split
  · contradiction
  · rfl
  · rfl

theorem isQuiet_ended (levels : Levels) (c : CommandLine) (h : ¬ t.IsOutput c.output)
    (execution : Execution) : (ended levels c t execution).IsQuiet :=
  (isQuiet_streamed h _).bind (Traced.IsQuiet.bind rfl (Traced.isQuiet_note ..))

theorem isQuiet_capture (c : CommandLine) (status : ExitStatus) (t : FileTree) :
    (capture c status t).IsQuiet := by
  unfold capture
  split
  · rfl
  · cases t.readText c.output <;> rfl

theorem isQuiet_execute (host : Host) (levels : Levels) (c : CommandLine)
    (h : ¬ t.IsOutput c.output) : (execute host levels c t).IsQuiet := by
  refine (isQuiet_report (Traced.isQuiet_note ..) t).andThen fun _ _ => ?_
  refine isQuiet_ofFileOp_andThen fun place u hopen => ?_
  have hu : ¬ u.IsOutput c.output := fun hout => h (hout.of_openForWriting hopen)
  refine isQuiet_ofFileOp_andThen fun execution v _ => ?_
  refine (isQuiet_report (isQuiet_ended levels c hu execution) v).andThen fun _ _ => ?_
  exact isQuiet_capture ..

/-- A run puts something on the standard output only if a file of the request's own leads there
once the background files are staged. -/
theorem isQuiet_solve (host : Host) (i : Installation) (request : Request)
    (h : ∀ name ∈ request.ownNames,
      ¬ (i.stage request t).2.IsOutput (Path.join i.directory name)) :
    (solve host i request t).IsQuiet := by
  refine isQuiet_ofFileOp_andThen fun staged u hstage => ?_
  have hpath : staged.path = i.directory := path_of_stage hstage
  obtain rfl : (i.stage request t).2 = u := congrArg Prod.snd hstage
  refine (isQuiet_report (Traced.isQuiet_note ..) _).andThen fun _ _ => ?_
  dsimp only [CommandLine.ofRequest]
  rw [hpath]
  refine isQuiet_ofFileOp_andThen fun _ v hwrite => ?_
  have hprogram := h _ List.mem_cons_self
  have houtput := h _ (List.mem_cons_of_mem _ List.mem_cons_self)
  refine (isQuiet_report (isQuiet_streamed hprogram _) v).andThen fun _ _ => ?_
  exact isQuiet_execute host i.levels _ fun hout => houtput (hout.of_writeText hwrite)

end Installation
end Horizon
