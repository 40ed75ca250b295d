import Horizon.Proofs.EngineRuns
import Horizon.Proofs.ParallelWrites

/-!
What a run of the engine depends on. Two trees that are set apart by the files of a request's own
only, left by earlier runs or not, give one result. What the engine has printed is all that the
result of a run that succeeds is read from.
-/

namespace Horizon
namespace Outcome

variable {σ α β : Type} {S : α → σ → σ → Prop} {T : β → σ → σ → Prop}

/-- The outcomes have one result, and if they succeed they leave related states. -/
def Agree (o o' : Outcome σ α) (S : α → σ → σ → Prop) : Prop :=
  o'.result = o.result ∧ ∀ a, o.result = .ok a → S a o.state o'.state

theorem Agree.andThen {o o' : Outcome σ α} {next : α → σ → Outcome σ β} (h : Agree o o' S)
    (hnext : ∀ a s s', S a s s' → Agree (next a s) (next a s') T) :
    Agree (o.andThen next) (o'.andThen next) T := by
  obtain ⟨hresult, hstate⟩ := h
  unfold Outcome.andThen
  rw [hresult]
  cases ho : o.result with
  | error e => exact ⟨rfl, nofun⟩
  | ok a => exact hnext a _ _ (hstate a ho)

theorem agree_ofFileOp {R : FileTree → FileTree → Prop} {S : α → FileTree → FileTree → Prop}
    {op : FileOp α} (h : FileOp.Together R op S) (failure : FileError → EngineError)
    {t u : FileTree} (hr : R t u) : Agree (ofFileOp op failure t) (ofFileOp op failure u) S := by
  obtain ⟨hresult, hstate⟩ := h t u hr
  refine ⟨?_, fun a ha => ?_⟩
  · rw [result_ofFileOp, result_ofFileOp, hresult]
  · rw [state_ofFileOp, state_ofFileOp]
    exact hstate a (result_ofFileOp_ok_iff.mp ha)

end Outcome

namespace Behaviour

open FileTree Installation

variable {t u : FileTree} {b : Behaviour} {d : Location}

/-- What the program prints and how it ends depends on nothing in the directory but the contents of
the files that its arguments name. -/
def IgnoresDirectory (b : Behaviour) (d : Location) : Prop :=
  ∀ program args t u, u.here = t.here → (∀ l, Outside d l → u.at? l = t.at? l) →
    (∀ p ∈ args, u.readBytes p = t.readBytes p) → b program args u = b program args t

/-- The result of a run, read from what the program has printed. -/
def captured (b : Behaviour) (launched : CommandLine × Location) (t : FileTree) :
    Except EngineError Transcript :=
  let c := launched.1
  match b c.spawned c.spawnedArgs t with
  | .error e => .error (.spawn c.render e)
  | .ok (printed, execution) =>
      if execution.status.isFailure then .error (.failed c.render execution.status)
      else
        match Utf8.decode? printed with
        | none => .error (.output c.output .notText)
        | some text => .ok ⟨c.output, text⟩

theorem captured_eq (hb : b.IgnoresDirectory d) (h : Alike d [] t u)
    (launched : CommandLine × Location) : b.captured launched u = b.captured launched t := by
  rw [captured, captured, hb _ _ t u h.here h.outside fun p _ => h.readBytes_eq p]

/-- A run that succeeds gives the text that the program has printed. -/
theorem printed_of_captured {launched : CommandLine × Location} {transcript : Transcript}
    (h : b.captured launched t = .ok transcript) :
    ∃ printed execution,
      b launched.1.spawned launched.1.spawnedArgs t = .ok (printed, execution) ∧
        Utf8.decode? printed = some transcript.text := by
  unfold captured at h
  dsimp only at h
  split at h
  · cases h
  rename_i printed execution hb
  split at h
  · cases h
  split at h
  · cases h
  rename_i text htext
  cases h
  exact ⟨printed, execution, hb, htext⟩

/-- From an empty file that its path leads to, no more is read than what the program prints. -/
theorem result_finishing {launched : CommandLine × Location}
    (h : Writes t launched.1.output launched.2 [] u) :
    (finishing b.host launched u).result = b.captured launched u := by
  unfold finishing captured Outcome.ofFileOp Outcome.andThen launchOf
  rw [b.host_apply]
  dsimp only
  cases b launched.1.spawned launched.1.spawnedArgs u with
  | error e => rfl
  | ok printed =>
      dsimp only
      rw [capture, (h.overwrite printed.1).readText]
      split
      · rfl
      · cases Utf8.decode? printed.1 <;> rfl

end Behaviour

namespace Installation

open FileTree Staging Outcome FileOp Horizon.Path

variable {t u u₁ u₂ : FileTree} {b : Behaviour} {i : Installation} {request : Request} {k j : Nat}
  {d : Location} {root : Path}

/-- The path of the query's directory leads to `d`, the background files lie elsewhere, and the
request's own names stand for plain files there or for nothing. -/
structure Separated (i : Installation) (request : Request) (k : Nat) (d : Location)
    (t : FileTree) : Prop where
  leads : t.LeadsTo k i.directory d
  here : t.Opens t.here
  sources : ∀ s ∈ i.sources request, LiesOutside t d s
  own : ∀ n ∈ request.ownNames, Plain (t.at? (n :: d))

/-- Everything up to the start of the engine goes the same way in both trees. The files of the
request's own are then the same in both, and its output is empty. -/
theorem launching_agree (hlabel : '/' ∉ request.label) (h : Separated i request k d t)
    (hprepared : PreparedAlike t i.directory d request.ownNames u₁ u₂) :
    Agree (i.launching request u₁) (i.launching request u₂) fun launched v₁ v₂ =>
      Alike d [] v₁ v₂ ∧ ∃ w₁ w₂, Writes w₁ launched.1.output launched.2 [] v₁ ∧
        Writes w₂ launched.1.output launched.2 [] v₂ := by
  have hprogram : IsName (request.label ++ ".asp".toList) :=
    request.isName_of_mem_ownNames hlabel List.mem_cons_self
  have houtput : IsName (request.label ++ "_output.txt".toList) :=
    request.isName_of_mem_ownNames hlabel (List.mem_cons_of_mem _ List.mem_cons_self)
  refine (agree_ofFileOp (together_stage h.leads h.here h.sources) .stage hprepared).andThen ?_
  rintro staged v₁ v₂ ⟨hpath, hpaired⟩
  dsimp only [CommandLine.ofRequest]
  rw [hpath]
  have written := together_writeText (t := t) h.leads hprogram List.mem_cons_self
    (List.subset_cons_self _ [request.label ++ "_output.txt".toList])
    (fun m hm hne => (List.mem_cons.mp hm).resolve_left hne) (request.program ++ ['\n'])
  refine (agree_ofFileOp written _ hpaired).andThen fun _ v₁ v₂ hpaired => ?_
  have opened := together_openForWriting (t := t) h.leads houtput List.mem_cons_self
    (List.nil_subset [request.label ++ "_output.txt".toList])
    (fun m hm hne => (List.mem_cons.mp hm).resolve_left hne) false
  refine (agree_ofFileOp opened _ hpaired).andThen fun place v₁ v₂ ⟨hpaired, hwrites⟩ => ?_
  refine ⟨rfl, fun launched hlaunched => ?_⟩
  cases hlaunched
  exact ⟨hpaired.alike, hwrites⟩

theorem Separated.preparedAlike (h : Separated i request k d (prepared t i.directory)) :
    PreparedAlike (prepared t i.directory) i.directory d request.ownNames t t :=
  ⟨_, _, _, rfl, rfl, h.own, .refl .., .refl ..⟩

theorem prepared_of_leads (hleads : t.LeadsTo j root d) : prepared t root = t := by
  obtain ⟨r, ht, -⟩ := makeDirectories_agree (.refl t) hleads rfl
  rw [prepared, ht]

/-- Where the directory is there, both trees are left as they are. -/
theorem Separated.preparedAlike_of_leads (h : Separated i request k d (prepared t i.directory))
    (hleads : t.LeadsTo j i.directory d) (halike : Alike d request.ownNames t u) :
    PreparedAlike (prepared t i.directory) i.directory d request.ownNames t u := by
  rw [prepared_of_leads hleads] at h ⊢
  obtain ⟨r, ht, hu⟩ :=
    makeDirectories_agree halike.outlined hleads (halike.outside d (outside_self d))
  exact ⟨r, t, u, ht, hu, h.own, .refl .., halike⟩

/-- What a run gives once its engine can be started is read from what the engine prints. -/
theorem result_solve (h : ∀ launched, (i.launching request t).result = .ok launched →
      ∃ w, Writes w launched.1.output launched.2 [] (i.launching request t).state) :
    (solve b.host i request t).result =
      match (i.launching request t).result with
      | .error e => .error e
      | .ok launched => b.captured launched (i.launching request t).state := by
  have hcore := congrArg Prod.fst (core_solve b.host i request t)
  change (solve b.host i request t).result = _ at hcore
  rw [hcore, core_andThen]
  cases hlaunched : (i.launching request t).result with
  | error e => rfl
  | ok launched =>
      obtain ⟨w, hw⟩ := h launched hlaunched
      exact Behaviour.result_finishing hw

/-- Whether files of a request's own are left from earlier runs makes no difference to a run, and
what is read when it succeeds is what its engine has printed. -/
theorem solve_agrees (hlabel : '/' ∉ request.label)
    (h : Separated i request k d (prepared t i.directory)) :
    (∀ u, (u ≠ t → t.LeadsTo j i.directory d) → Alike d request.ownNames t u →
      b.IgnoresDirectory d →
        (solve b.host i request u).result = (solve b.host i request t).result) ∧
    ∀ transcript, (solve b.host i request t).result = .ok transcript →
      ∃ launched printed execution, (i.launching request t).result = .ok launched ∧
        b launched.1.spawned launched.1.spawnedArgs (i.launching request t).state =
          .ok (printed, execution) ∧
        Utf8.decode? printed = some transcript.text := by
  constructor
  · intro u hleads halike hb
    by_cases hut : u = t
    · rw [hut]
    obtain ⟨hresult, hstate⟩ :=
      launching_agree hlabel h (h.preparedAlike_of_leads (hleads hut) halike)
    rw [result_solve fun launched hl => ?_, result_solve fun launched hl => ?_, hresult]
    · cases hl : (i.launching request t).result with
      | error e => rfl
      | ok launched => exact Behaviour.captured_eq hb (hstate launched hl).1 launched
    · obtain ⟨-, w, -, hw, -⟩ := hstate launched hl
      exact ⟨w, hw⟩
    · obtain ⟨-, -, w, -, hw⟩ := hstate launched (hresult ▸ hl)
      exact ⟨w, hw⟩
  · intro transcript hsolve
    obtain ⟨-, hstate⟩ := launching_agree hlabel h h.preparedAlike
    rw [result_solve fun launched hl => ?_] at hsolve
    · split at hsolve
      · cases hsolve
      · rename_i launched hlaunched
        obtain ⟨printed, execution, hprinted⟩ := Behaviour.printed_of_captured hsolve
        exact ⟨launched, printed, execution, hlaunched, hprinted⟩
    · obtain ⟨-, w, -, hw, -⟩ := hstate launched hl
      exact ⟨w, hw⟩

/-- A background file, and an empty directory for the query. -/
def swept : FileTree := ofEntries
  [(["a".toList], .directory), (["x".toList, "a".toList], .file [50] false),
    (["q".toList], .directory)]

/-- The same with the files of an earlier run. -/
def leftover : FileTree :=
  (swept.put ["query.asp".toList, "q".toList] (.file [49] true)).put
    ["query_output.txt".toList, "q".toList] (.file [51] false)

/-- An engine that prints the files that its arguments name. -/
def echo : Behaviour := fun _ args t =>
  .ok ((args.map fun p => (t.readBytes p).toOption.getD []).flatten, { status := .code 10 })

/-- The engine is given the new program and the background file, in both trees. -/
theorem solve_agrees_leftover :
    (solve echo.host (sharing "/a/x".toList) plainRequest leftover).result =
        (solve echo.host (sharing "/a/x".toList) plainRequest swept).result ∧
      (solve echo.host (sharing "/a/x".toList) plainRequest swept).result =
        .ok ⟨"/q/query_output.txt".toList, "2p.\n".toList⟩ ∧
      ∃ launched printed execution,
        ((sharing "/a/x".toList).launching plainRequest swept).result = .ok launched ∧
        echo launched.1.spawned launched.1.spawnedArgs
          ((sharing "/a/x".toList).launching plainRequest swept).state =
            .ok (printed, execution) ∧
        Utf8.decode? printed = some "2p.\n".toList := by
  have proper : Storable "q".toList := ⟨⟨by decide, by decide, by decide, by decide⟩, by decide⟩
  have leads : swept.LeadsTo 0 "/q".toList ["q".toList] := .idle (.inl rfl) (.down proper rfl .here)
  have own : ∀ n ∈ plainRequest.ownNames, Plain (swept.at? [n, "q".toList]) :=
    List.forall_mem_cons.mpr ⟨plain_none, List.forall_mem_singleton.mpr plain_none⟩
  have outside : LiesOutside swept ["q".toList] "/a/x".toList :=
    ⟨["x".toList, "a".toList], by decide +kernel, ⟨_, _, rfl⟩,
      fun n h => absurd (congrArg List.tail h) (show ["a".toList] ≠ ["q".toList] by decide)⟩
  have separated : Separated (sharing "/a/x".toList) plainRequest 0 ["q".toList]
      (prepared swept "/q".toList) := by
    rw [prepared_of_leads leads]
    exact ⟨leads, trivial, List.forall_mem_singleton.mpr outside, own⟩
  have program : "query.asp".toList ∈ plainRequest.ownNames := List.mem_cons_self
  have output : "query_output.txt".toList ∈ plainRequest.ownNames :=
    List.mem_cons_of_mem _ List.mem_cons_self
  have alike : Alike ["q".toList] plainRequest.ownNames swept leftover :=
    ((Alike.refl ..).put program (own _ program) _ _).put output (own _ output) _ _
  have echoes : echo.IgnoresDirectory ["q".toList] := by
    intro program args t u _ _ hargs
    unfold echo
    rw [List.map_congr_left fun p hp => by rw [hargs p hp]]
  obtain ⟨same, printed⟩ := solve_agrees (b := echo) (by decide) separated
  have read : (solve echo.host (sharing "/a/x".toList) plainRequest swept).result =
      .ok ⟨"/q/query_output.txt".toList, "2p.\n".toList⟩ := by decide +kernel
  exact ⟨same leftover (fun _ => leads) alike echoes, read, printed _ read⟩

end Installation
end Horizon
