import Horizon.Proofs.OutputTruncation

/-!
Outputs put together from parts. After a line that does not mention `Answer` no answer is
awaited, so what follows it is scanned as if it stood alone. A run of header lines awaits one
content, and the first line after them is the content whatever it says.
-/

namespace Horizon
namespace Event

/-- A line without the mark is the content that is awaited, or it is no header. -/
theorem step_of_unmarked {l : Text} (h : ¬ answerMark <:+: l) (awaiting : Bool) :
    (step awaiting l).2 = false := by
  rw [← Text.mentions_eq_false_iff] at h
  cases awaiting with
  | true => simp [step, h]
  | false =>
      cases hl : classify l with
      | event e => simp [step, hl]
      | noise => simp [step, hl]
      | answerHeader =>
          have marked := ((classify_eq_answerHeader_iff l).mp hl).1
          rw [← Text.mentions_iff_infix, h] at marked
          contradiction

theorem awaits_append (awaiting : Bool) (ls ms : List Text) :
    awaits awaiting (ls ++ ms) = awaits (awaits awaiting ls) ms := by
  induction ls generalizing awaiting with
  | nil => rfl
  | cons l ls ih => exact ih (step awaiting l).2

/-- The last line alone decides that no answer is awaited. -/
theorem awaits_of_unmarked {ls : List Text} (h : ∀ l ∈ ls.getLast?, ¬ answerMark <:+: l) :
    awaits false ls = false := by
  cases hlast : ls.getLast? with
  | none => rw [List.getLast?_eq_none_iff.mp hlast, awaits]
  | some l =>
      obtain ⟨front, rfl⟩ := List.getLast?_eq_some_iff.mp hlast
      rw [awaits_append]
      exact step_of_unmarked (h l hlast) _

/-- A text of whole lines, of which the last one does not mention `Answer`. -/
structure Closed (s : Text) : Prop where
  whole : s = [] ∨ ∃ r, s = r ++ ['\n']
  unmarked : ∀ l ∈ (Text.lines s).getLast?, ¬ answerMark <:+: l

theorem Closed.scan_append {s : Text} (h : Closed s) (t : Text) :
    scan (s ++ t) = scan s ++ scan t := by
  have hbegun : Text.begun s = [] := Text.begun_eq_nil h.whole
  refine scan_append_of_settled hbegun (awaits_of_unmarked ?_) t
  intro l hl hmark
  rw [endedLines, Text.ended_eq_self hbegun, List.getLast?_map] at hl
  obtain ⟨line, hline, rfl⟩ := Option.map_eq_some_iff.mp hl
  exact h.unmarked line hline (hmark.trans (Text.trimEnd_prefix line).isInfix)

/-- A line feed at the end of a text ends its last line and adds nothing to it. -/
theorem scan_concat_newline (s : Text) : scan (s ++ ['\n']) = scan s := by
  rw [scan_append, Text.lines_append_cons (Text.newline_not_mem_begun s), scan_cut]
  rfl

/-- Scanning goes part by part. A text of whole lines whose last line does not mention `Answer` is
scanned by itself whatever follows, and lines that do mention it give, with the first line that
does not, one answer: this line, even if it looks like a status or a cost. -/
theorem scan_part_by_part :
    (∀ s, Closed s → ∀ t, scan (s ++ t) = scan s ++ scan t) ∧
    (∀ hs, HeaderRun hs → ∀ c : Text, '\n' ∉ c → ¬ answerMark <:+: c →
      scan (Text.unlines hs ++ c) = [.answer (Text.trimEnd c)] ∧
      scan (Text.unlines (hs ++ [c])) = [.answer (Text.trimEnd c)]) := by
  refine ⟨fun s h t => h.scan_append t, ?_⟩
  intro hs h c newline unmarked
  have ended : scan (Text.unlines hs ++ (c ++ ['\n'])) = [.answer (Text.trimEnd c)] :=
    h.scan_content newline unmarked []
  constructor
  · rw [← scan_concat_newline, List.append_assoc, ended]
  · rw [← ended]
    simp [Text.unlines]

/-- A content that looks like a status, below a header that mentions an interruption but is not
the first one. -/
theorem scan_part_by_part_status :
    let block := "Answer: 1\np(1)\n".toList
    let headers := ["Answer: 2".toList, "Answer INTERRUPTED : 1".toList]
    Closed block ∧ HeaderRun headers ∧
    scan (block ++ "UNKNOWN\n".toList) = [.answer "p(1)".toList, .unknown] ∧
    scan (Text.unlines headers ++ "UNSATISFIABLE ".toList) =
      [.answer "UNSATISFIABLE".toList] := by
  intro block headers
  have closed : Closed block := by
    refine ⟨.inr ⟨"Answer: 1\np(1)".toList, rfl⟩, ?_⟩
    simp only [← Text.mentions_eq_false_iff]
    decide
  have run : HeaderRun headers := by
    refine ⟨by decide, by decide, ?_, ?_⟩
    · simp only [← Text.mentions_iff_infix]
      decide
    · simp only [← Text.mentions_eq_false_iff]
      decide
  obtain ⟨parts, blocks⟩ := scan_part_by_part
  refine ⟨closed, run, parts block closed _, (blocks headers run _ (by decide) ?_).1⟩
  rw [← Text.mentions_eq_false_iff]
  decide

end Event
end Horizon
