import Horizon.Query.Basic

/-!
The reasoner. It compiles a query into a request, has an engine answer it, and reads the
reply; the three parts are separate functions, so what is asked never depends on how the
output will be read.
-/

namespace Horizon

structure Reasoner where
  /-- The name of the step variable. -/
  var : Text := ['n']
  actions : ActionSet := {}
  /-- Consulted by the readings of plain atoms only. -/
  policy : Policy := .discard
  levels : Levels := {}
deriving DecidableEq, Repr

namespace Reasoner

def compile (r : Reasoner) (c : Compilation) : Traced Text := c.compile r.levels r.var

/-- The length of a plan as the step that its last action reaches. -/
def planLength (plan : AnswerSet) : Step :=
  if plan.size < UInt32.size then UInt32.ofNat plan.size else 4294967295

/-- What the engine is asked. -/
def request (r : Reasoner) : Query → Traced Request
  | .program text initialStep finalStep label answers useCopyFiles =>
      return ⟨text, initialStep, finalStep, label, answers, useCopyFiles⟩
  | .rules rules step label answers => do
      return ⟨← r.compile (.program rules), step, step, label, answers, true⟩
  | .atoms text step label answers => return ⟨text, step, step, label, answers, true⟩
  | .currentState rules => do
      return ⟨← r.compile (.state rules), 0, 0, Query.stateLabel, 1, true⟩
  | .minimalPlan goal _ maxLength answers => do
      return ⟨← r.compile (.plan goal), 0, maxLength, Query.planLabel, answers, true⟩
  | .planInRange goal _ _ maxLength answers => do
      return ⟨← r.compile (.plan goal), maxLength, maxLength, Query.planLabel, answers, true⟩
  | .optimalPlan goal _ maxLength answers _ => do
      return ⟨← r.compile (.plan goal), maxLength, maxLength, Query.planLabel, answers, true⟩
  | .monitor goal plan | .isPlanValid goal plan => do
      return ⟨← r.compile (.monitor goal plan), planLength plan, planLength plan,
        Query.monitorLabel, 1, true⟩
  | .filtering state plan goal => do
      return ⟨← r.compile (.diagnosis state plan goal), planLength plan, planLength plan,
        Query.filterLabel, 0, false⟩
  | .optimization text label => return ⟨text, 0, 0, label, 0, true⟩

/-- The answer sets in captured output. They are given up when the output ends in a
report of unsatisfiability, whatever the reasoner's policy is. -/
def readAnswerSets (r : Reasoner) (text : Text) : Traced (List AnswerSet) := do
  let answers ← Reading.answerSets .discard r.levels text
  Traced.note r.levels .parse
    ("Read ".toList ++ Numeral.write answers.length ++ " answer set(s)".toList)
  return answers

/-- The plans as they are, or reduced to their actions. -/
def projected (r : Reasoner) (actionsOnly : Bool) (answers : List AnswerSet) : List AnswerSet :=
  if actionsOnly then AnswerSet.projectAll r.actions answers else answers

/-- The readings of a monitor query that are as long as the plan. -/
def monitored (r : Reasoner) (plan : AnswerSet) (text : Text) : Traced (List AnswerSet) := do
  return AnswerSet.prune (planLength plan) (← r.readAnswerSets text)

/-- How the captured output answers a query. -/
def reply (r : Reasoner) (text : Text) : Query → Traced Reply
  | .program .. | .rules .. => do return .answerSets (← r.readAnswerSets text)
  | .atoms .. => do return .atomGroups (← Reading.atomGroups r.policy r.levels text)
  | .currentState _ => do return .answerSet ((← r.readAnswerSets text).head?.getD {})
  | .minimalPlan _ actionsOnly _ _ => do
      return .answerSets (r.projected actionsOnly (← r.readAnswerSets text))
  | .planInRange _ actionsOnly minLength _ _ => do
      let plans := AnswerSet.prune minLength (← r.readAnswerSets text)
      return .answerSets (r.projected actionsOnly plans)
  | .optimalPlan _ actionsOnly _ _ direction => do
      let plan ← Reading.optimal direction r.levels text
      return .answerSet (if actionsOnly then plan.project r.actions else plan)
  | .monitor _ plan => do return .answerSets (← r.monitored plan text)
  | .isPlanValid _ plan => do return .verdict (!(← r.monitored plan text).isEmpty)
  | .filtering .. | .optimization .. => do
      return .answerSet (← Reading.optimal .minimize r.levels text)

def captured (label : Text) (path : Path) : Text :=
  "Query ".toList ++ label ++ " captured in ".toList ++ path

/-- Asks an engine and reads its output. -/
def ask {σ : Type} (r : Reasoner) (engine : Engine σ) (query : Query) (s : σ) :
    Outcome σ Reply :=
  let asked := r.request query
  let run := engine asked.value s
  let records := asked.records ++ run.records
  match run.result with
  | .error e => ⟨.error e, records, run.state⟩
  | .ok transcript =>
      let read : Traced Reply := do
        Traced.note r.levels .invoke (captured asked.value.label transcript.outputPath)
        r.reply transcript.text query
      ⟨.ok read.value, records ++ read.records, run.state⟩

/-- Asks queries one after another; gives the result of each, all records, and the state
after the last one. -/
def askAll {σ : Type} (r : Reasoner) (engine : Engine σ) :
    List Query → σ → List (Except EngineError Reply) × List Record × σ
  | [], s => ([], [], s)
  | q :: qs, s =>
      let first := r.ask engine q s
      let rest := r.askAll engine qs first.state
      (first.result :: rest.1, first.records ++ rest.2.1, rest.2.2)

end Reasoner
end Horizon
