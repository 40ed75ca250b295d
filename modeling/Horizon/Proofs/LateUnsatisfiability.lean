import Horizon.Engine.Scripted
import Horizon.Proofs.OutputTruncation
import Horizon.Proofs.QueryReplies

/-!
Reports of unsatisfiability, and the policy for the answers before them. The first report stands
on a line of its own, and the events before it are those of the output cut before this line. Only
the reading of plain atoms has a policy: the answers before the report are given up, or they are
what the cut output gives.
-/

namespace Horizon

namespace Event

theorem classify_eq_unsatisfiable_iff (l : Text) :
    classify l = .event .unsatisfiable ↔ l = unsatisfiableMark := by
  constructor
  · intro h
    unfold classify at h
    repeat' split at h
    all_goals first | assumption | cases h
  · intro h
    rw [classify, if_pos h]

theorem step_eq_unsatisfiable_iff (awaiting : Bool) (l : Text) :
    (step awaiting l).1 = some .unsatisfiable ↔ awaiting = false ∧ l = unsatisfiableMark := by
  cases awaiting with
  | true =>
      simp only [step]
      split <;> simp
  | false =>
      rw [← classify_eq_unsatisfiable_iff]
      cases hl : classify l <;> simp [step, hl]

/-- The first report is a line on which no answer is awaited, and no line before it is one. -/
theorem exists_report_of_mem {awaiting : Bool} {ls : List Text}
    (h : .unsatisfiable ∈ ofLines awaiting ls) :
    ∃ before after, ls = before ++ unsatisfiableMark :: after ∧
      awaits awaiting before = false ∧ .unsatisfiable ∉ settled awaiting before := by
  induction ls generalizing awaiting with
  | nil => cases awaiting <;> simp [ofLines] at h
  | cons l ls ih =>
      by_cases hl : (step awaiting l).1 = some .unsatisfiable
      · obtain ⟨hawaiting, hmark⟩ := (step_eq_unsatisfiable_iff awaiting l).mp hl
        refine ⟨[], ls, ?_, hawaiting, List.not_mem_nil⟩
        rw [hmark, List.nil_append]
      · rw [ofLines_cons, List.mem_append, Option.mem_toList] at h
        obtain ⟨before, after, hls, hawaits, hfirst⟩ := ih (h.resolve_left hl)
        refine ⟨l :: before, after, by rw [hls, List.cons_append], hawaits, ?_⟩
        rw [settled, List.mem_append, Option.mem_toList, not_or]
        exact ⟨hl, hfirst⟩

theorem scan_newline (r : Text) : scan ('\n' :: r) = scan r := by
  rw [scan, Text.lines, if_pos rfl, List.map_cons]
  rfl

/-- The first report of unsatisfiability in an output: the line it stands on, and the parts of the
output before and after this line. -/
structure FirstReport (s before line rest : Text) : Prop where
  split : s = before ++ (line ++ rest)
  start : Text.begun before = []
  stop : '\n' ∉ line ∧ (rest = [] ∨ ∃ r, rest = '\n' :: r)
  mark : Text.trimEnd line = unsatisfiableMark
  events : scan s = scan before ++ .unsatisfiable :: scan rest
  first : .unsatisfiable ∉ scan before

theorem scan_report {line rest : Text} (newline : '\n' ∉ line)
    (stop : rest = [] ∨ ∃ r, rest = '\n' :: r) (mark : Text.trimEnd line = unsatisfiableMark) :
    scan (line ++ rest) = .unsatisfiable :: scan rest := by
  have report : ∀ ls, ofLines false (unsatisfiableMark :: ls) =
      .unsatisfiable :: ofLines false ls := fun _ => rfl
  cases stop with
  | inl hrest =>
      have hne : line ≠ [] := by
        intro hnil
        rw [hnil] at mark
        cases mark
      rw [hrest, List.append_nil, scan, Text.lines_eq_singleton hne newline, List.map_cons, mark,
        report]
      rfl
  | inr hrest =>
      obtain ⟨r, rfl⟩ := hrest
      rw [scan_newline, scan, Text.lines_append_cons newline, List.map_cons, mark, report]
      rfl

theorem exists_firstReport {s : Text} (h : .unsatisfiable ∈ scan s) :
    ∃ before line rest, FirstReport s before line rest := by
  obtain ⟨before, after, hlines, hawaits, hfirst⟩ := exists_report_of_mem h
  obtain ⟨bs, cs, hbs, hbefore, hcs⟩ := List.map_eq_append_iff.mp hlines
  obtain ⟨line, ls, rfl, hmark, -⟩ := List.map_eq_cons_iff.mp hcs
  obtain ⟨p, r, rfl, hbegun, hp, hr⟩ := Text.exists_split_of_lines (List.cons_ne_nil line ls) hbs
  have hended : endedLines p = before := by
    rw [endedLines, Text.ended_eq_self hbegun, hp, hbefore]
  rw [← hended] at hawaits hfirst
  rw [← scan_eq_settled hbegun hawaits] at hfirst
  obtain ⟨hline, hend⟩ := Text.split_of_lines_eq_cons hr
  obtain ⟨rest, hsplit, hrest⟩ : ∃ rest, r = line ++ rest ∧ (rest = [] ∨ ∃ t, rest = '\n' :: t) := by
    cases hend with
    | inl hall => exact ⟨[], by rw [hall.1, List.append_nil], .inl rfl⟩
    | inr hnext =>
        obtain ⟨t, ht, -⟩ := hnext
        exact ⟨'\n' :: t, ht, .inr ⟨t, rfl⟩⟩
  refine ⟨p, line, rest, ?_, hbegun, ⟨hline, hrest⟩, hmark, ?_, hfirst⟩
  · rw [hsplit]
  · rw [hsplit, scan_append_of_settled hbegun hawaits, scan_report hline hrest hmark]

end Event

namespace Reading

section Collecting

variable {α : Type} (read : Text → Except ReadError α)

/-- The answers among the events that are left: all that can be read, or all but the last one of
them if there is an interruption. -/
def survivors (es : List Event) : List α :=
  if .interrupted ∈ es then (readable read es).dropLast else readable read es

theorem value_collect_survivors (policy : Policy) (levels : Levels) (es : List Event) :
    (collect policy read levels [] false es).value =
      if policy = .discard ∧ .unsatisfiable ∈ es then [] else survivors read (considered es) := by
  simp [value_collect, survivors]

variable {s before line rest : Text} (h : Event.FirstReport s before line rest)

include h

theorem considered_scan : considered (Event.scan s) = Event.scan before := by
  rw [h.events, considered_append h.first]
  exact List.append_nil _

theorem value_collect_discard (levels : Levels) :
    (collect .discard read levels [] false (Event.scan s)).value = [] := by
  rw [value_collect_survivors, if_pos ⟨rfl, by simp [h.events]⟩]

/-- Nothing from the report on is looked at. -/
theorem value_collect_keep (levels : Levels) :
    (collect .keep read levels [] false (Event.scan s)).value =
      survivors read (Event.scan before) := by
  rw [value_collect_survivors, if_neg (by simp), considered_scan h]

theorem value_collect_before (policy : Policy) (levels : Levels) :
    (collect policy read levels [] false (Event.scan before)).value =
      survivors read (Event.scan before) := by
  rw [value_collect_survivors, if_neg fun hu => h.first hu.2, considered_eq_self h.first]

end Collecting

/-- What the two policies make of an output. They differ exactly if an answer is left of those
before the first report of unsatisfiability; this report makes the one reading empty and the other
one that of the output cut before it. -/
structure ReadByPolicy (levels : Levels) (s : Text) (kept discarded : List (List Atom)) : Prop where
  differ_iff : kept ≠ discarded ↔ ∃ before line rest, Event.FirstReport s before line rest ∧
    survivors atoms (Event.scan before) ≠ []
  late : ∀ before line rest, Event.FirstReport s before line rest →
    discarded = [] ∧ ∀ policy, kept = (atomGroups policy levels before).value

theorem readByPolicy_atomGroups (levels : Levels) (s : Text) :
    ReadByPolicy levels s (atomGroups .keep levels s).value (atomGroups .discard levels s).value where
  differ_iff := by
    constructor
    · intro hne
      have hunsat : .unsatisfiable ∈ Event.scan s := by
        by_contra hnone
        simp [atomGroups, value_collect_survivors, hnone] at hne
      obtain ⟨before, line, rest, h⟩ := Event.exists_firstReport hunsat
      refine ⟨before, line, rest, h, ?_⟩
      rwa [atomGroups, atomGroups, value_collect_keep atoms h, value_collect_discard atoms h] at hne
    · intro hlate
      obtain ⟨before, line, rest, h, hsome⟩ := hlate
      rwa [atomGroups, atomGroups, value_collect_keep atoms h, value_collect_discard atoms h]
  late := by
    intro before line rest h
    refine ⟨value_collect_discard atoms h levels, fun policy => ?_⟩
    exact (value_collect_keep atoms h levels).trans (value_collect_before atoms h policy levels).symm

end Reading

/-- Whether the reply to a query is groups of plain atoms. -/
def Query.asksAtoms : Query → Bool
  | .atoms .. => true
  | _ => false

namespace Reasoner

def withPolicy (r : Reasoner) (policy : Policy) : Reasoner := { r with policy := policy }

section Policies

variable (r : Reasoner) (policy : Policy)

theorem request_withPolicy (q : Query) : (r.withPolicy policy).request q = r.request q := by
  cases q <;> rfl

theorem reply_withPolicy {q : Query} (hq : q.asksAtoms = false) (text : Text) :
    (r.withPolicy policy).reply text q = r.reply text q := by
  cases q with
  | atoms => cases hq
  | _ => rfl

variable {σ : Type} (engine : Engine σ) (q : Query) (s : σ)

theorem ask_withPolicy (hq : q.asksAtoms = false) :
    (r.withPolicy policy).ask engine q s = r.ask engine q s := by
  have levels : (r.withPolicy policy).levels = r.levels := rfl
  have reply : ∀ text, (r.withPolicy policy).reply text q = id <$> r.reply text q := by
    intro text
    rw [reply_withPolicy r policy hq, id_map]
  rw [ask_eq_map levels (request_withPolicy r policy q) reply, Outcome.map_id]

theorem result_ask_atoms (hq : q.asksAtoms = true) :
    ((r.withPolicy policy).ask engine q s).result =
      (engine (r.request q).value s).result.map fun t =>
        .atomGroups (Reading.atomGroups policy r.levels t.text).value := by
  rw [result_ask, request_withPolicy]
  cases q with
  | atoms => rfl
  | _ => cases hq

end Policies

/-- The policy reaches no other reply than that of plain atoms. Two reasoners that differ in
nothing else ask the same, and get the same replies to all other queries. Where plain atoms are
asked for they fail alike, and they read the output as the policies say. -/
theorem policy_reaches_atomGroups {σ : Type} (r : Reasoner) (engine : Engine σ) (q : Query)
    (s : σ) :
    let keeping := r.withPolicy .keep
    let discarding := r.withPolicy .discard
    keeping.request q = discarding.request q ∧
    (q.asksAtoms = false → keeping.ask engine q s = discarding.ask engine q s) ∧
    (q.asksAtoms = true →
      match (engine (r.request q).value s).result with
      | .error e => (keeping.ask engine q s).result = .error e ∧
          (discarding.ask engine q s).result = .error e
      | .ok t => ∃ kept discarded, (keeping.ask engine q s).result = .ok (.atomGroups kept) ∧
          (discarding.ask engine q s).result = .ok (.atomGroups discarded) ∧
          Reading.ReadByPolicy r.levels t.text kept discarded) := by
  intro keeping discarding
  refine ⟨?_, ?_, ?_⟩
  · rw [request_withPolicy, request_withPolicy]
  · intro hq
    rw [ask_withPolicy r .keep engine q s hq, ask_withPolicy r .discard engine q s hq]
  · intro hq
    have hkeep := result_ask_atoms r .keep engine q s hq
    have hdiscard := result_ask_atoms r .discard engine q s hq
    cases ht : (engine (r.request q).value s).result with
    | error e =>
        rw [ht] at hkeep hdiscard
        exact ⟨hkeep, hdiscard⟩
    | ok t =>
        rw [ht] at hkeep hdiscard
        exact ⟨_, _, hkeep, hdiscard, Reading.readByPolicy_atomGroups r.levels t.text⟩

def lateOutput : Text := "Answer: 1\np(1)\nUNSATISFIABLE\nAnswer: 2\nq(1)\n".toList

/-- The lines of the output up to the report. -/
def cutOutput : Text := "Answer: 1\np(1)\n".toList

/-- The report comes after one answer and before another. -/
theorem policy_reaches_atomGroups_late :
    let script : Script := { outputs := [some lateOutput] }
    let query := Query.plain "p(1).".toList 1
    query.asksAtoms = true ∧
    Event.FirstReport lateOutput cutOutput "UNSATISFIABLE".toList "\nAnswer: 2\nq(1)\n".toList ∧
    (((({} : Reasoner).withPolicy .keep).ask Engine.scripted query script).result =
      .ok (.atomGroups [[⟨"p".toList, ["1".toList]⟩]])) ∧
    ((({} : Reasoner).withPolicy .discard).ask Engine.scripted query script).result =
      .ok (.atomGroups []) := by
  intro script query
  have hq : query.asksAtoms = true := rfl
  have report : Event.FirstReport lateOutput cutOutput "UNSATISFIABLE".toList
      "\nAnswer: 2\nq(1)\n".toList :=
    ⟨rfl, rfl, ⟨by decide, .inr ⟨_, rfl⟩⟩, rfl, rfl, by decide⟩
  have before : (Reading.atomGroups .keep {} cutOutput).value = [[⟨"p".toList, ["1".toList]⟩]] := rfl
  obtain ⟨kept, discarded, hkept, hdiscarded, hread⟩ :=
    (policy_reaches_atomGroups {} Engine.scripted query script).2.2 hq
  obtain ⟨hnone, hcut⟩ := hread.late _ _ _ report
  refine ⟨hq, report, ?_, ?_⟩
  · rw [hkept, hcut .keep, ← before]
  · rw [hdiscarded, hnone]

end Reasoner

end Horizon
