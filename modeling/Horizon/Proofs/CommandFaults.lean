import Horizon.Proofs.CommandVerdict
import Horizon.Proofs.NumeralReading

/-!
Runs of the command that fail. What can be wrong with a run before the engine is asked is the step,
the program or the time limit, each without regard to the others, and the first fault in this order
is the one that is reported. Apart from a greeting, the report is then all that there is of the run:
no program is started, and the file tree stays as it is. Answers are printed last, so that a run
whose engine fails prints none either.
-/

namespace Horizon

theorem Utf8.decode?_eq_none_iff (bytes : Bytes) :
    decode? bytes = none ↔ ∀ text, encode text ≠ bytes := by
  constructor
  · rintro h text rfl
    rw [decode?_encode] at h
    contradiction
  · intro h
    cases hread : decode? bytes with
    | none => rfl
    | some text => exact absurd (encode_of_decode? hread) (h text)

/-- Where an error stands in the order in which errors are looked for. -/
def CommandError.rank : CommandError → Nat
  | .invalidStep .. => 0
  | .unreadableFile .. | .unreadableInput => 1
  | .invalidMaxTime .. => 2
  | .engine _ => 3

namespace Command

/-- The file that the program is in, unless it comes from the standard input. -/
def programPath? (args : List Text) : Option Path := args.head?.filter (· ≠ ['-'])

/-- What a named file holds. A path may lead to the standard input as well. -/
def fileBytes (i : Invocation) (t : FileTree) (p : Path) : Except FileError Bytes :=
  if isInput t p then .ok i.input else t.readBytes p

/-- Why what was looked for is no text: it cannot be got at, or it is not well-formed. -/
def Unreadable (found : Except FileError Bytes) (cause : FileError) : Prop :=
  found = .error cause ∨
    cause = .notText ∧ ∃ bytes, found = .ok bytes ∧ ∀ text, Utf8.encode text ≠ bytes

/-- What is wrong with a run before the engine is asked, each error for itself. -/
def Fault (i : Invocation) (t : FileTree) : CommandError → Prop
  | .invalidStep text cause => i.args[1]? = some text ∧ Numeral.read32 text = .error cause
  | .unreadableFile path cause =>
      programPath? i.args = some path ∧ Unreadable (fileBytes i t path) cause
  | .unreadableInput => programPath? i.args = none ∧ Unreadable (.ok i.input) .notText
  | .invalidMaxTime text cause =>
      i.environment.lookup "TEMPO_MAX_TIME".toList = some text ∧
        Numeral.read32 text = .error cause
  | .engine _ => False

variable {i : Invocation} {t : FileTree} {e : CommandError}

/-! The step and the time limit. -/

/-- A number that may be given as a text, with the error for a text that is none. -/
def givenNumber (fallback : UInt32) (failure : Text → NumeralError → CommandError) :
    Option Text → Except CommandError UInt32
  | none => .ok fallback
  | some text =>
      match Numeral.read32 text with
      | .ok n => .ok n
      | .error cause => .error (failure text cause)

theorem givenNumber_eq_error_iff {fallback : UInt32} {given : Option Text}
    {failure : Text → NumeralError → CommandError} :
    givenNumber fallback failure given = .error e ↔
      ∃ text cause, given = some text ∧ Numeral.read32 text = .error cause ∧
        failure text cause = e := by
  cases given with
  | none => simp [givenNumber]
  | some text =>
      rw [givenNumber]
      cases h : Numeral.read32 text <;> simp [h]

theorem step_eq_givenNumber (args : List Text) :
    step args = givenNumber 0 .invalidStep args[1]? := by
  rcases args with _ | ⟨_, _ | ⟨text, _⟩⟩
  · rfl
  · rfl
  · cases h : Numeral.read32 text <;> simp [step, givenNumber, h]

theorem configuration_eq_map_givenNumber (env : Environment) :
    ∃ setUp, configuration env =
      (givenNumber 0 .invalidMaxTime (env.lookup "TEMPO_MAX_TIME".toList)).map setUp := by
  refine ⟨_, congrArg (Except.map _) ?_⟩
  cases env.lookup "TEMPO_MAX_TIME".toList with
  | none => rfl
  | some text => cases h : Numeral.read32 text <;> simp [givenNumber, h]

theorem map_eq_error_iff {ε α β : Type} {f : α → β} {x : Except ε α} {e : ε} :
    x.map f = .error e ↔ x = .error e := by
  cases x <;> simp [Except.map]

theorem step_eq_error_iff : step i.args = .error e ↔ e.rank = 0 ∧ Fault i t e := by
  rw [step_eq_givenNumber, givenNumber_eq_error_iff]
  cases e <;> simp [CommandError.rank, Fault]

theorem configuration_eq_error_iff :
    configuration i.environment = .error e ↔ e.rank = 2 ∧ Fault i t e := by
  obtain ⟨setUp, h⟩ := configuration_eq_map_givenNumber i.environment
  rw [h, map_eq_error_iff, givenNumber_eq_error_iff]
  cases e <;> simp [CommandError.rank, Fault]

/-! The program. -/

theorem unreadable_ok_iff {bytes : Bytes} {cause : FileError} :
    Unreadable (.ok bytes) cause ↔ Utf8.decode? bytes = none ∧ cause = .notText := by
  simp [Unreadable, Utf8.decode?_eq_none_iff, and_comm]

theorem unreadable_error_iff {cause cause' : FileError} :
    Unreadable (.error cause') cause ↔ cause = cause' := by
  simp [Unreadable, eq_comm]

theorem decoded_eq_error_iff {ε α : Type} {bytes : Bytes} {failure e : ε} {use : Text → α} :
    ((Utf8.decode? bytes).elim (.error failure) fun text => .ok (use text) : Except ε α) =
        .error e ↔
      Utf8.decode? bytes = none ∧ e = failure := by
  cases Utf8.decode? bytes <;> simp [eq_comm]

theorem readText_eq_error_iff {p : Path} {cause : FileError} :
    t.readText p = .error cause ↔ Unreadable (t.readBytes p) cause := by
  rw [FileTree.readText]
  cases t.readBytes p with
  | error cause' => simp [unreadable_error_iff, eq_comm]
  | ok bytes => exact decoded_eq_error_iff.trans unreadable_ok_iff.symm

theorem source_of_input (h : programPath? i.args = none) :
    source i t =
      (Utf8.decode? i.input).elim (.error .unreadableInput) fun text => .ok (text, []) := by
  unfold source
  split
  · rfl
  · rfl
  · next path hne hpath =>
      rw [programPath?, hpath] at h
      exact absurd (by simpa [Option.filter] using h) hne

theorem source_of_file {path : Path} (h : programPath? i.args = some path) :
    source i t =
      if isInput t path then
        (Utf8.decode? i.input).elim (.error (.unreadableFile path .notText)) fun text =>
          .ok (text, [])
      else
        match t.readText path with
        | .ok text => .ok (text, i.input)
        | .error cause => .error (.unreadableFile path cause) := by
  obtain ⟨hhead, hne⟩ := Option.filter_eq_some_iff.mp h
  unfold source
  split
  · next hnone => rw [hnone] at hhead; contradiction
  · next hdash =>
      rw [hdash] at hhead
      cases hhead
      contradiction
  · next hpath =>
      rw [hpath] at hhead
      cases hhead
      rfl

theorem source_of_file_eq_error_iff {path : Path} (h : programPath? i.args = some path) :
    source i t = .error e ↔
      ∃ cause, Unreadable (fileBytes i t path) cause ∧ .unreadableFile path cause = e := by
  rw [source_of_file h, fileBytes]
  by_cases hinput : isInput t path = true
  · rw [if_pos hinput, if_pos hinput, decoded_eq_error_iff]
    simp only [unreadable_ok_iff]
    constructor
    · rintro ⟨hread, rfl⟩
      exact ⟨.notText, ⟨hread, rfl⟩, rfl⟩
    · rintro ⟨_, ⟨hread, rfl⟩, rfl⟩
      exact ⟨hread, rfl⟩
  · rw [if_neg hinput, if_neg hinput]
    simp only [← readText_eq_error_iff]
    cases t.readText path <;> simp

theorem source_eq_error_iff : source i t = .error e ↔ e.rank = 1 ∧ Fault i t e := by
  cases h : programPath? i.args with
  | none =>
      rw [source_of_input h, decoded_eq_error_iff]
      cases e <;> simp [CommandError.rank, Fault, h, unreadable_ok_iff]
  | some path =>
      rw [source_of_file_eq_error_iff h]
      cases e with
      | unreadableFile path' cause =>
          simp only [CommandError.rank, Fault, h, Option.some.injEq, true_and]
          constructor
          · rintro ⟨_, hfound, heq⟩
            cases heq
            exact ⟨rfl, hfound⟩
          · rintro ⟨rfl, hfound⟩
            exact ⟨cause, hfound, rfl⟩
      | _ => simp [CommandError.rank, Fault, h]

/-! The order of the faults. -/

theorem rank_lt_of_fault (h : Fault i t e) : e.rank < 3 := by
  cases e with
  | engine _ => exact h.elim
  | _ => simp [CommandError.rank]

/-- A part of the preparation that refuses the faults of one rank goes well if there are none. -/
theorem exists_ok_iff {α : Type} {x : Except CommandError α} {k : Nat}
    (h : ∀ e, x = .error e ↔ e.rank = k ∧ Fault i t e) :
    (∃ a, x = .ok a) ↔ ∀ e, Fault i t e → e.rank ≠ k := by
  cases x with
  | error e =>
      obtain ⟨hrank, hfault⟩ := (h e).mp rfl
      exact iff_of_false nofun fun hnone => hnone e hfault hrank
  | ok a =>
      refine iff_of_true ⟨a, rfl⟩ fun e hfault hrank => ?_
      have := (h e).mpr ⟨hrank, hfault⟩
      contradiction

theorem prepare_of_step (h : step i.args = .error e) : prepare i t = .error e := by
  simp [prepare, h, bind, Except.bind]

theorem prepare_of_source {n : Step} (hstep : step i.args = .ok n) (h : source i t = .error e) :
    prepare i t = .error e := by
  simp [prepare, hstep, h, bind, Except.bind]

theorem prepare_of_configuration {n : Step} {read : Text × Bytes} (hstep : step i.args = .ok n)
    (hsource : source i t = .ok read) (h : configuration i.environment = .error e) :
    prepare i t = .error e := by
  simp [prepare, hstep, hsource, h, bind, Except.bind]

theorem exists_prepare_eq_ok_iff : (∃ task, prepare i t = .ok task) ↔ ∀ e, ¬ Fault i t e := by
  constructor
  · rintro ⟨task, h⟩ e he
    obtain ⟨n, read, c, hstep, hsource, hconf, -⟩ := prepare_eq_ok_iff.mp h
    have hlt := rank_lt_of_fault he
    have h0 := (exists_ok_iff fun _ => step_eq_error_iff).mp ⟨n, hstep⟩ e he
    have h1 := (exists_ok_iff fun _ => source_eq_error_iff).mp ⟨read, hsource⟩ e he
    have h2 := (exists_ok_iff fun _ => configuration_eq_error_iff).mp ⟨c, hconf⟩ e he
    omega
  · intro h
    have none_of : ∀ k, ∀ e, Fault i t e → e.rank ≠ k := fun _ e he => absurd he (h e)
    obtain ⟨n, hstep⟩ := (exists_ok_iff fun _ => step_eq_error_iff).mpr (none_of 0)
    obtain ⟨read, hsource⟩ := (exists_ok_iff fun _ => source_eq_error_iff).mpr (none_of 1)
    obtain ⟨c, hconf⟩ := (exists_ok_iff fun _ => configuration_eq_error_iff).mpr (none_of 2)
    exact ⟨_, prepare_eq_ok_iff.mpr ⟨n, read, c, hstep, hsource, hconf, rfl⟩⟩

/-- A fault is reported if there is none before it. -/
theorem prepare_of_first_fault (h : Fault i t e) (first : ∀ e', Fault i t e' → e.rank ≤ e'.rank) :
    prepare i t = .error e := by
  -- The parts are made out in the order of the ranks, so each one before that of `e` goes well.
  have none_before : ∀ {k}, k < e.rank → ∀ e', Fault i t e' → e'.rank ≠ k := by
    intro k hk e' he' hrank
    have := first e' he'
    omega
  have hlt := rank_lt_of_fault h
  obtain hrank | hrank | hrank : e.rank = 0 ∨ e.rank = 1 ∨ e.rank = 2 := by omega
  · exact prepare_of_step (step_eq_error_iff.mpr ⟨hrank, h⟩)
  · obtain ⟨n, hstep⟩ :=
      (exists_ok_iff fun _ => step_eq_error_iff).mpr (none_before (by omega))
    exact prepare_of_source hstep (source_eq_error_iff.mpr ⟨hrank, h⟩)
  · obtain ⟨n, hstep⟩ :=
      (exists_ok_iff fun _ => step_eq_error_iff).mpr (none_before (by omega))
    obtain ⟨read, hsource⟩ :=
      (exists_ok_iff fun _ => source_eq_error_iff).mpr (none_before (by omega))
    exact prepare_of_configuration hstep hsource (configuration_eq_error_iff.mpr ⟨hrank, h⟩)

theorem run_of_prepare_error (h : prepare i t = .error e) (host : Inheritance → Host) :
    run host i t = ⟨1, greeting i, e.render, t⟩ := by
  rw [run, h]

/-- A run fails before it prints an answer. -/
theorem output_of_code_one {host : Inheritance → Host} (h : (run host i t).code = 1) :
    (run host i t).output = greeting i ∨
      ∃ task, prepare i t = .ok task ∧ ReachesOutput task t ∧
        (run host i t).output = opening host i task t := by
  cases hprepare : prepare i t with
  | error e =>
      rw [run_of_prepare_error hprepare]
      exact .inl rfl
  | ok task =>
      cases hsolved : (solved host i task t).result with
      | ok transcript =>
          rw [(run_of_solved hprepare hsolved).1] at h
          contradiction
      | error e =>
          obtain ⟨-, printed⟩ := run_of_failed hprepare hsolved
          by_cases hreaches : ReachesOutput task t
          · exact .inr ⟨task, rfl, hreaches, printed⟩
          · exact .inl (printed.trans (opening_eq_greeting hprepare hreaches))

theorem greeting_ne_nil_iff :
    greeting i ≠ [] ↔ i.args = [] ∧ i.terminalInput = true ∧ i.terminalOutput = true := by
  have greets : welcome ≠ [] := by decide
  simp [greeting, greets, and_assoc]

/-- Every failing run prints nothing but the greeting, which is for terminals and runs without
arguments, unless the program or the output of its query is led to the standard output; it never
prints an answer. A step is accepted if and only if it is a numeral of a value that fits in 32 bits,
and a time limit likewise. Of all faults that the arguments, the input, the environment and the tree
have together, the first is reported; apart from the greeting the run consists of this report,
whatever programs would do if they were started, and the tree is left as it is. Without a fault, the
engine is asked. -/
theorem run_reports_first_fault (host : Inheritance → Host) (i : Invocation) (t : FileTree) :
    ((run host i t).code = 1 →
      (run host i t).output = greeting i ∨
        ∃ task, prepare i t = .ok task ∧ ReachesOutput task t ∧
          (run host i t).output = opening host i task t) ∧
    (greeting i ≠ [] ↔ i.args = [] ∧ i.terminalInput = true ∧ i.terminalOutput = true) ∧
    (∀ text, i.args[1]? = some text →
      ∀ n, step i.args = .ok n ↔ Numeral.Unsigned text n.toNat) ∧
    (∀ text, (∃ cause, Numeral.read32 text = .error cause) ↔
      ¬ ∃ v, Numeral.Unsigned text v ∧ v < 4294967296) ∧
    (∀ e, Fault i t e → (∀ e', Fault i t e' → e.rank ≤ e'.rank) →
      ∀ host', run host' i t = ⟨1, greeting i, e.render, t⟩) ∧
    ((∃ task, prepare i t = .ok task) ↔ ∀ e, ¬ Fault i t e) := by
  refine ⟨output_of_code_one, greeting_ne_nil_iff, ?_, Numeral.exists_read32_eq_error_iff, ?_, ?_⟩
  · intro text h n
    rw [step_eq_givenNumber, h, ← Numeral.read32_eq_ok_iff_unsigned, givenNumber]
    cases Numeral.read32 text <;> simp
  · intro e h first
    exact run_of_prepare_error (prepare_of_first_fault h first)
  · exact exists_prepare_eq_ok_iff

/-- A run with a step that is none, a program that is not there and a time limit out of range. -/
def faultyRun : Invocation :=
  { args := ["/nowhere".toList, "+".toList]
    environment := [("TEMPO_MAX_TIME".toList, "4294967296".toList)] }

theorem run_reports_first_fault_step :
    Fault faultyRun {} (.invalidStep "+".toList .invalidDigit) ∧
    Fault faultyRun {} (.unreadableFile "/nowhere".toList .notFound) ∧
    Fault faultyRun {} (.invalidMaxTime "4294967296".toList .tooLarge) ∧
    ∀ host, run host faultyRun {} =
      ⟨1, [],
        "Error: Invalid step +\n\nCaused by:\n    invalid digit found in string\n".toList, {}⟩ := by
  have hstep : Fault faultyRun {} (.invalidStep "+".toList .invalidDigit) := ⟨rfl, rfl⟩
  refine ⟨hstep, ⟨rfl, .inl rfl⟩, ⟨rfl, rfl⟩, fun host => ?_⟩
  obtain ⟨-, -, -, -, reported, -⟩ := run_reports_first_fault host faultyRun {}
  exact reported _ hstep (fun _ _ => Nat.zero_le _) host

/-- Someone at a terminal, with a time limit that is no number. -/
def impatientRun : Invocation :=
  { environment := [("TEMPO_MAX_TIME".toList, ['x'])], terminalInput := true,
    terminalOutput := true }

/-- A program from the standard input, to be staged in a directory `/w`. -/
def pipedRun : Invocation :=
  { input := Utf8.encode "a.".toList, environment := [("TEMPO_WORKDIR".toList, "/w".toList)] }

/-- A tree whose directory `/w` has the standard output in the place of the program. -/
def linkedOutput : FileTree := FileTree.ofEntries
  [(["fd".toList], .directory), (["1".toList, "fd".toList], .descriptor 1),
    (["w".toList], .directory), (["query.asp".toList, "w".toList], .link "/fd/1".toList)]

/-- Starts nothing. -/
def idle (_ : Inheritance) : Host := Behaviour.host fun _ _ _ => .error .notFound

/-- A failing run may have greeted, and it may have written its program to the standard output. -/
theorem run_prints_before_failing :
    (run idle impatientRun {}).code = 1 ∧ (run idle impatientRun {}).output = welcome ∧
      (run idle pipedRun linkedOutput).code = 1 ∧
      (run idle pipedRun linkedOutput).output = "a.\n".toList := by
  decide +kernel

end Command
end Horizon
