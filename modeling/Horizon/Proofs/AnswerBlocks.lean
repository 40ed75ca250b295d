import Horizon.Proofs.AtomReading
import Horizon.Proofs.OutputEvents
import Horizon.Proofs.OutputReadings

/-!
Which blocks are recognised. The line after a header is the content of the block unless it
mentions `Answer` itself, and a line of atoms does so exactly if a name or an argument of one
of its atoms does. Then the line passes for one more header, and the line after it is taken
for the content.
-/

namespace Horizon

open Grammar

namespace Atom

/-- The mark that introduces answers stands in the name or in an argument. -/
def Marked (a : Atom) : Prop :=
  Event.answerMark <:+: a.name ∨ ∃ t ∈ a.arguments, Event.answerMark <:+: t

theorem solid_of_read {w : Text} {a : Atom} (unspaced : ∀ c ∈ w, Text.isBlank c = false)
    (h : Atom.read w = .ok a) : Text.Solid w := by
  refine ⟨?_, unspaced⟩
  rintro rfl
  have refused : Atom.read [] = .error (.malformedAtom []) := rfl
  rw [refused] at h
  cases h

/-- Nothing is lost between a word and the atom that is read from it but punctuation. -/
theorem marked_iff_of_read {w : Text} {a : Atom} (hw : Text.Solid w) (h : Atom.read w = .ok a) :
    a.Marked ↔ Event.answerMark <:+: w := by
  have hatom := (read_eq_ok_iff w a).mp h
  rw [hw.trim_eq] at hatom
  exact (hatom.infix_iff (by decide) rfl).symm

/-- A line has the mark exactly if one of its atoms has it. -/
theorem exists_marked_iff {ws : List Text} {as : List Atom} (solid : ∀ w ∈ ws, Text.Solid w)
    (reads : Reading.each Atom.read ws = .ok as) :
    (∃ a ∈ as, a.Marked) ↔ Event.answerMark <:+: Text.join [' '] ws := by
  rw [Text.infix_join_iff (by decide) (by decide)]
  constructor
  · rintro ⟨a, ha, hmark⟩
    obtain ⟨w, hw, hread⟩ := Reading.exists_word_of_mem reads ha
    exact ⟨w, hw, (marked_iff_of_read (solid w hw) hread).mp hmark⟩
  · rintro ⟨w, hw, hmark⟩
    obtain ⟨a, ha, hread⟩ := Reading.exists_read_of_mem reads hw
    exact ⟨a, ha, (marked_iff_of_read (solid w hw) hread).mpr hmark⟩

end Atom

namespace Event

/-- A block of atoms is recognised, and the events after it are those of the rest, if and
only if none of its atoms mentions `Answer`. Otherwise the events are those of the text
without the content line. -/
theorem scan_block_iff (k : Nat) {ws : List Text} {as : List Atom}
    (unspaced : ∀ w ∈ ws, ∀ c ∈ w, Text.isBlank c = false)
    (reads : ws.map Atom.read = as.map .ok) (rest : Text) :
    let content := Text.join [' '] ws
    let events := scan (header k ++ '\n' :: (content ++ '\n' :: rest))
    (events = .answer content :: scan rest ↔ ∀ a ∈ as, ¬ a.Marked) ∧
    ((∃ a ∈ as, a.Marked) → events = scan (header k ++ '\n' :: rest)) := by
  intro content events
  have line : Reading.each Atom.read ws = .ok as :=
    (Reading.each_eq_ok_iff Atom.read ws as).mpr reads
  have solid : ∀ w ∈ ws, Text.Solid w := by
    intro w hw
    obtain ⟨a, -, hread⟩ := Reading.exists_read_of_mem line hw
    exact Atom.solid_of_read (unspaced w hw) hread
  have marked : (∃ a ∈ as, a.Marked) ↔ answerMark <:+: content :=
    Atom.exists_marked_iff solid line
  have newline : '\n' ∉ content := Text.newline_not_mem_join_solid solid
  have trimmed : Text.trimEnd content = content := Text.trimEnd_join_solid solid
  refine ⟨⟨?_, ?_⟩, ?_⟩
  -- No answer ever has the mark in its content, so a marked line is not the answer.
  · intro hevents a ha hmark
    have hmem : .answer content ∈ events := by rw [hevents]; exact List.mem_cons_self
    exact answer_mem_scan hmem (marked.mp ⟨a, ha, hmark⟩)
  · intro hnone
    have unmarked : ¬ answerMark <:+: content := by
      rw [← marked]
      rintro ⟨a, ha, hmark⟩
      exact hnone a ha hmark
    rw [← trimmed]
    exact scan_block k newline unmarked rest
  · intro hsome
    exact scan_block_marked k newline (by rw [trimmed]; exact marked.mp hsome) rest

/-- Less than the whole mark in a line, and the whole mark in the next one, do no harm. -/
theorem scan_block_partial_mark :
    (∀ w ∈ ["-go(b,1)".toList, "tells(\"Answe\")".toList], ∀ c ∈ w, Text.isBlank c = false) ∧
    ["-go(b,1)".toList, "tells(\"Answe\")".toList].map Atom.read =
      [⟨"-go".toList, ["b".toList, "1".toList]⟩, ⟨"tells".toList, ["\"Answe\"".toList]⟩].map .ok ∧
    scan (header 12 ++ '\n' :: (Text.join [' '] ["-go(b,1)".toList, "tells(\"Answe\")".toList] ++
        '\n' :: "Answer: 13\n".toList)) =
      .answer (Text.join [' '] ["-go(b,1)".toList, "tells(\"Answe\")".toList]) ::
        scan "Answer: 13\n".toList := by
  have unspaced : ∀ w ∈ ["-go(b,1)".toList, "tells(\"Answe\")".toList],
      ∀ c ∈ w, Text.isBlank c = false := by simp [Text.isBlank]
  have reads : ["-go(b,1)".toList, "tells(\"Answe\")".toList].map Atom.read =
      [⟨"-go".toList, ["b".toList, "1".toList]⟩, ⟨"tells".toList, ["\"Answe\"".toList]⟩].map
        .ok := rfl
  refine ⟨unspaced, reads, (scan_block_iff 12 unspaced reads "Answer: 13\n".toList).1.mpr ?_⟩
  simp only [Atom.Marked, ← Text.mentions_iff_infix]
  decide

/-- The status line is taken for the content of the block. -/
theorem scan_block_theAnswer :
    (∀ c ∈ "theAnswer(1)".toList, Text.isBlank c = false) ∧
    Atom.read "theAnswer(1)".toList = .ok ⟨"theAnswer".toList, ["1".toList]⟩ ∧
    scan (header 1 ++ '\n' :: ("theAnswer(1)".toList ++ '\n' :: "SATISFIABLE\n".toList)) =
      [.answer "SATISFIABLE".toList] ∧
    scan (header 1 ++ '\n' :: ("theAnswer(1)".toList ++ '\n' :: "SATISFIABLE\n".toList)) ≠
      .answer "theAnswer(1)".toList :: scan "SATISFIABLE\n".toList := by
  refine ⟨by simp [Text.isBlank], rfl, rfl, ?_⟩
  decide

end Event
end Horizon
