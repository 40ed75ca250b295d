import Horizon.Configuration
import Horizon.Proofs.QueryReplies

/-!
Records of some levels. Every computation that keeps records can be run at all levels, and what
it keeps at some of them is then what is left when the records of the others are taken out. Its
value is the same at all levels, and so is everything that the engine is asked. The engine has
levels of its own: an installed one gets those of its reasoner, and another one may have others.
-/

namespace Horizon

theorem Levels.has_all (level : Level) : Levels.all.has level = true := by
  cases level <;> rfl

/-- The computation without the records of other levels. -/
def Traced.shown {α : Type} (levels : Levels) (x : Traced α) : Traced α :=
  ⟨x.value, x.records.filter (Record.shown levels)⟩

namespace Traced

variable {α β : Type} (levels : Levels)

@[simp] theorem shown_pure (a : α) : (pure a : Traced α).shown levels = pure a := rfl

@[simp] theorem shown_bind (x : Traced α) (f : α → Traced β) :
    (x >>= f).shown levels = x.shown levels >>= fun a => (f a).shown levels := by
  simp only [shown, Bind.bind, List.filter_append]

@[simp] theorem shown_map (f : α → β) (x : Traced α) :
    (f <$> x).shown levels = f <$> x.shown levels := by
  ext1
  · rfl
  · rw [records_map, shown, shown, records_map]

@[simp] theorem shown_note (level : Level) (text : Text) :
    (note .all level text).shown levels = note levels level text := by
  simp only [shown, note, Levels.has_all, if_true, List.filter_cons, List.filter_nil]
  rfl

end Traced

/-- The outcome without the records of other levels. -/
def Outcome.shown {σ α : Type} (levels : Levels) (o : Outcome σ α) : Outcome σ α :=
  ⟨o.result, o.records.filter (Record.shown levels), o.state⟩

namespace Outcome

variable {σ α β : Type} (levels : Levels)

@[simp] theorem shown_andThen (o : Outcome σ α) (next : α → σ → Outcome σ β) :
    (o.andThen next).shown levels =
      (o.shown levels).andThen fun a s => (next a s).shown levels := by
  unfold andThen shown
  cases o.result with
  | error e => rfl
  | ok a => simp only [List.filter_append]

@[simp] theorem shown_ofFileOp (op : FileOp α) (failure : FileError → EngineError) (t : FileTree) :
    (ofFileOp op failure t).shown levels = ofFileOp op failure t := by
  unfold ofFileOp
  rcases op t with ⟨_ | a, u⟩ <;> rfl

@[simp] theorem shown_report (x : Traced Unit) (s : σ) :
    (report x s).shown levels = report (x.shown levels) s := rfl

end Outcome

namespace Installation

variable (levels : Levels)

theorem shown_streamed (t : FileTree) (p : Path) (text : Text) :
    (streamed t p text).shown levels = streamed t p text := by
  unfold streamed
  split <;> rfl

theorem shown_ended (c : CommandLine) (t : FileTree) (execution : Execution) :
    (ended .all c t execution).shown levels = ended levels c t execution := by
  simp only [ended, Traced.shown_bind, shown_streamed, Traced.shown_note]
  rfl

theorem shown_capture (c : CommandLine) (status : ExitStatus) (t : FileTree) :
    (capture c status t).shown levels = capture c status t := by
  unfold capture
  split
  · rfl
  · cases t.readText c.output <;> rfl

theorem shown_execute (host : Host) (c : CommandLine) (t : FileTree) :
    (execute host .all c t).shown levels = execute host levels c t := by
  simp only [execute, Outcome.shown_andThen, Outcome.shown_report, Outcome.shown_ofFileOp,
    Traced.shown_note, shown_ended, shown_capture]

def withLevels (i : Installation) : Installation := { i with levels := levels }

/-- What an installed engine reports is selected by its levels; otherwise they are no matter. -/
theorem shown_solve (host : Host) (i : Installation) (request : Request) (t : FileTree) :
    (solve host (i.withLevels .all) request t).shown levels =
      solve host (i.withLevels levels) request t := by
  simp only [solve, Outcome.shown_andThen, Outcome.shown_report, Outcome.shown_ofFileOp,
    withLevels, Traced.shown_note, shown_streamed, shown_execute]
  rfl

end Installation

namespace Engine

variable {σ : Type}

/-- The engine together with the requests that it has got, the latest one first. -/
def logged (engine : Engine σ) : Engine (List Request × σ) := fun request s =>
  let run := engine request s.2
  ⟨run.result, run.records, request :: s.1, run.state⟩

/-- What the engine for some levels reports is what the one for all levels does, less the records
of other levels. -/
def Selects (engine : Levels → Engine σ) : Prop :=
  ∀ levels request s, (engine .all request s).shown levels = engine levels request s

/-- The engine with its records as text that is passed on, whatever their levels are. -/
def relayed (engine : Engine σ) : Engine σ := fun request s =>
  let run := engine request s
  ⟨run.result, [.passed (Record.renderAll run.records)], run.state⟩

theorem selects_relayed (engine : Engine σ) : Selects fun _ => engine.relayed :=
  fun _ _ _ => rfl

end Engine

namespace Reading

variable {α : Type} (policy : Policy) (read : Text → Except ReadError α) (direction : Direction)
  (levels : Levels)

theorem shown_finish (found : List α) (interrupted : Bool) :
    (finish .all found interrupted).shown levels = finish levels found interrupted := by
  cases interrupted with
  | false => rfl
  | true =>
      cases found with
      | nil => rfl
      | cons a earlier => simp only [finish, Traced.shown_bind, Traced.shown_note, Traced.shown_pure]

theorem shown_collect (found : List α) (interrupted : Bool) (es : List Event) :
    (collect policy read .all found interrupted es).shown levels =
      collect policy read levels found interrupted es := by
  induction es generalizing found interrupted with
  | nil => exact shown_finish levels found interrupted
  | cons e es ih =>
      cases e with
      | unsatisfiable =>
          cases policy with
          | discard => rfl
          | keep => exact shown_finish levels found interrupted
      | interrupted | unknown | optimization _ => exact ih _ _
      | answer content =>
          simp only [collect]
          cases read content with
          | ok a => exact ih _ _
          | error e => simp only [Traced.shown_bind, Traced.shown_note, ih]

theorem shown_answerSets (text : Text) :
    (answerSets policy .all text).shown levels = answerSets policy levels text :=
  shown_collect policy fluents levels [] false _

theorem shown_atomGroups (text : Text) :
    (atomGroups policy .all text).shown levels = atomGroups policy levels text :=
  shown_collect policy atoms levels [] false _

theorem shown_search (best : Option (Int × AnswerSet)) (current : Option AnswerSet)
    (es : List Event) :
    (search direction .all best current es).shown levels =
      search direction levels best current es := by
  induction es generalizing best current with
  | nil => rfl
  | cons e es ih =>
      cases e with
      | unsatisfiable | unknown => rfl
      | interrupted => exact ih _ _
      | answer content =>
          simp only [search]
          cases fluents content with
          | ok a => exact ih _ _
          | error e => simp only [Traced.shown_bind, Traced.shown_note, ih]
      | optimization cost =>
          cases current with
          | none => exact ih _ _
          | some answer =>
              simp only [search]
              split
              · simp only [Traced.shown_bind, Traced.shown_note, ih]
              · exact ih _ _

theorem shown_optimal (text : Text) :
    (optimal direction .all text).shown levels = optimal direction levels text := by
  simp only [optimal, Traced.shown_bind, shown_search, Traced.shown_pure]

end Reading

namespace Reasoner

def withLevels (r : Reasoner) (levels : Levels) : Reasoner := { r with levels := levels }

section Sessions

variable (r : Reasoner) (levels : Levels)

@[simp] theorem withLevels_levels : (r.withLevels levels).levels = levels := rfl

@[simp] theorem withLevels_var : (r.withLevels levels).var = r.var := rfl

@[simp] theorem withLevels_actions : (r.withLevels levels).actions = r.actions := rfl

@[simp] theorem withLevels_policy : (r.withLevels levels).policy = r.policy := rfl

@[simp] theorem withLevels_projected : (r.withLevels levels).projected = r.projected := rfl

theorem shown_compile (c : Compilation) :
    ((r.withLevels .all).compile c).shown levels = (r.withLevels levels).compile c := by
  simp [compile, Compilation.compile]

theorem shown_request (q : Query) :
    ((r.withLevels .all).request q).shown levels = (r.withLevels levels).request q := by
  cases q <;> simp [request, shown_compile]

theorem shown_readAnswerSets (text : Text) :
    ((r.withLevels .all).readAnswerSets text).shown levels =
      (r.withLevels levels).readAnswerSets text := by
  simp [readAnswerSets, Reading.shown_answerSets]

theorem shown_monitored (plan : AnswerSet) (text : Text) :
    ((r.withLevels .all).monitored plan text).shown levels =
      (r.withLevels levels).monitored plan text := by
  simp [monitored, shown_readAnswerSets]

theorem shown_reply (text : Text) (q : Query) :
    ((r.withLevels .all).reply text q).shown levels = (r.withLevels levels).reply text q := by
  cases q <;>
    simp [reply, shown_readAnswerSets, shown_monitored, Reading.shown_atomGroups,
      Reading.shown_optimal]

variable {σ : Type} (engine : Engine σ)

/-! What the engine gets. -/

theorem ask_logged (q : Query) (log : List Request) (s : σ) :
    r.ask engine.logged q (log, s) =
      let o := r.ask engine q s
      ⟨o.result, o.records, (r.request q).value :: log, o.state⟩ := by
  simp only [ask, Engine.logged]
  cases (engine (r.request q).value s).result <;> rfl

/-- A log of its requests is no matter to the engine, and each query adds one to it. -/
theorem askAll_logged (queries : List Query) (log : List Request) (s : σ) :
    r.askAll engine.logged queries (log, s) =
      let session := r.askAll engine queries s
      (session.1, session.2.1,
        (queries.map fun q => (r.request q).value).reverse ++ log, session.2.2) := by
  induction queries generalizing log s with
  | nil => rfl
  | cons q queries ih => simp [askAll, ask_logged, ih]

/-- The requests that an engine gets for the queries, in order. -/
def sent (queries : List Query) (s : σ) : List Request :=
  (r.askAll engine.logged queries ([], s)).2.2.1.reverse

theorem sent_eq_map (queries : List Query) (s : σ) :
    r.sent engine queries s = queries.map fun q => (r.request q).value := by
  simp [sent, askAll_logged]

theorem sent_withLevels (engine' : Engine σ) (queries : List Query) (s : σ) :
    (r.withLevels levels).sent engine queries s =
      (r.withLevels .all).sent engine' queries s := by
  rw [sent_eq_map, sent_eq_map]
  apply List.map_congr_left
  intro q _
  rw [← shown_request]
  rfl

/-! What the engine reports. -/

theorem ask_relayed (q : Query) (s : σ) :
    let o := r.ask engine q s
    let o' := r.ask engine.relayed q s
    o'.result = o.result ∧ o'.state = o.state ∧
      Record.renderAll o'.records = Record.renderAll o.records := by
  simp only [ask, Engine.relayed]
  cases (engine (r.request q).value s).result <;>
    simp [Record.renderAll, Record.render]

/-- What an engine reports may as well be passed on as the text that it is. -/
theorem askAll_relayed (queries : List Query) (s : σ) :
    let session := r.askAll engine queries s
    let session' := r.askAll engine.relayed queries s
    session'.1 = session.1 ∧ session'.2.2 = session.2.2 ∧
      Record.renderAll session'.2.1 = Record.renderAll session.2.1 := by
  induction queries generalizing s with
  | nil => exact ⟨rfl, rfl, rfl⟩
  | cons q queries ih =>
      obtain ⟨result, state, text⟩ := ask_relayed r engine q s
      obtain ⟨results, last, texts⟩ := ih (r.ask engine q s).state
      simp only [Record.renderAll] at text texts
      simp [askAll, result, state, results, last, Record.renderAll, text, texts]

/-! A session at some levels. -/

variable {engine : Levels → Engine σ} (selects : Engine.Selects engine)
include selects

/-- A query that is asked at some levels: the engine's records, those of the request and those of
the reply are all that there are. -/
theorem shown_ask (q : Query) (s : σ) :
    ((r.withLevels .all).ask (engine .all) q s).shown levels =
      (r.withLevels levels).ask (engine levels) q s := by
  have request := shown_request r levels q
  simp only [ask, ← request, Traced.shown, ← selects levels, Outcome.shown]
  cases (engine .all ((r.withLevels .all).request q).value s).result with
  | error e => simp only [List.filter_append]
  | ok t =>
      have reply := shown_reply r levels t.text q
      have captured := Traced.shown_note levels .invoke
        (captured ((r.withLevels .all).request q).value.label t.outputPath)
      simp only [List.filter_append, ← reply, withLevels_levels, ← captured, Traced.shown,
        Traced.value_bind, Traced.records_bind]

theorem askAll_withLevels (queries : List Query) (s : σ) :
    (r.withLevels levels).askAll (engine levels) queries s =
      let session := (r.withLevels .all).askAll (engine .all) queries s
      (session.1, session.2.1.filter (Record.shown levels), session.2.2) := by
  induction queries generalizing s with
  | nil => rfl
  | cons q queries ih =>
      simp only [askAll, ih, ← shown_ask r levels selects q s]
      simp only [Outcome.shown, List.filter_append]

/-- Under two sets of levels, the same comes back and is left; the records are selected. -/
theorem session_selects (queries : List Query) (s : σ) (levels' : Levels) :
    let session := fun l => (r.withLevels l).askAll (engine l) queries s
    (session levels).1 = (session levels').1 ∧ (session levels).2.2 = (session levels').2.2 ∧
      (session levels).2.1 = (session .all).2.1.filter (Record.shown levels) := by
  intro session
  have select : ∀ l, session l =
      ((session .all).1, (session .all).2.1.filter (Record.shown l), (session .all).2.2) :=
    fun l => askAll_withLevels r l selects queries s
  refine ⟨?_, ?_, ?_⟩
  · rw [select, select levels']
  · rw [select, select levels']
  · exact congrArg (fun p => p.2.1) (select levels)

end Sessions

/-- Levels only select records, whatever queries are asked one after another. Under any two sets of
levels the engine gets the same requests and is left in the same state, and the same results and
errors come back. The records at some levels are those at all levels that belong to one of them, in
the same order: all records, the engine's among them, if the engine is installed with the levels of
its reasoner. Any other engine has levels of its own, or none; what it reports is passed on as it
is, and the levels select the records of the reasoner. -/
theorem levels_only_select (queries : List Query) (levels levels' : Levels) :
    (∀ (host : Host) (c : Configuration) (t : FileTree),
      let engine := fun l => Installation.solve host (c.installation l)
      let session := fun l => (c.reasoner l).askAll (engine l) queries t
      let records := fun l => (session l).2.1
      (c.reasoner levels).sent (engine levels) queries t =
          (c.reasoner levels').sent (engine levels') queries t ∧
        (session levels).1 = (session levels').1 ∧ (session levels).2.2 = (session levels').2.2 ∧
        records levels = (records .all).filter (Record.shown levels)) ∧
    ∀ {σ : Type} (r : Reasoner) (engine : Engine σ) (s : σ),
      let session := fun l => (r.withLevels l).askAll engine queries s
      let records := fun l => (session l).2.1
      let relayed := fun l => ((r.withLevels l).askAll engine.relayed queries s).2.1
      (r.withLevels levels).sent engine queries s = (r.withLevels levels').sent engine queries s ∧
        (session levels).1 = (session levels').1 ∧ (session levels).2.2 = (session levels').2.2 ∧
        relayed levels = (relayed .all).filter (Record.shown levels) ∧
        Record.renderAll (records levels) = Record.renderAll (relayed levels) := by
  constructor
  · intro host c t engine session records
    have selects : Engine.Selects engine := fun l request t =>
      Installation.shown_solve l host (c.installation l) request t
    obtain ⟨results, states, selected⟩ :=
      session_selects (c.reasoner .all) levels selects queries t levels'
    refine ⟨?_, results, states, selected⟩
    exact (sent_withLevels (c.reasoner .all) levels (engine levels) (engine .all) queries t).trans
      (sent_withLevels (c.reasoner .all) levels' (engine levels') (engine .all) queries t).symm
  · intro σ r engine s session records relayed
    obtain ⟨results, states, selected⟩ :=
      session_selects r levels engine.selects_relayed queries s levels'
    have same := fun l => askAll_relayed (r.withLevels l) engine queries s
    refine ⟨?_, ?_, ?_, selected, (same levels).2.2.symm⟩
    · rw [sent_withLevels r levels engine engine, sent_withLevels r levels' engine engine]
    · exact (same levels).1.symm.trans (results.trans (same levels').1)
    · exact (same levels).2.1.symm.trans (states.trans (same levels').2.1)

end Reasoner
end Horizon
