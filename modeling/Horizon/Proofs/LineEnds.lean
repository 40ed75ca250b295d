import Horizon.Output.Reading
import Horizon.Proofs.OutputSegments
import Mathlib.Logic.Relation

/-!
Outputs that differ at the ends of their lines only. The blanks before a line feed are trimmed
before a line is looked at, and line feeds at the end of a text add nothing but blank lines, which
give no event there. So the events do not depend on how lines are ended, and neither does
anything that is read from them.
-/

namespace Horizon
namespace Event

/-- White space that leaves a line one line. -/
structure Padding (b : Text) : Prop where
  blank : ∀ c ∈ b, Text.isBlank c = true
  newline : '\n' ∉ b

/-- One change at the end of a line or at the end of a text: a line feed gets a carriage return
before it, a line gets white space behind it, or the text gets one more line feed. -/
inductive EndEdit : Text → Text → Prop
  | carriageReturn (u v : Text) : EndEdit (u ++ '\n' :: v) (u ++ '\r' :: '\n' :: v)
  | pad {b : Text} (u v : Text) : Padding b → EndEdit (u ++ '\n' :: v) (u ++ (b ++ '\n' :: v))
  | padLast {b : Text} (u : Text) : Padding b → EndEdit u (u ++ b)
  | newline (u : Text) : EndEdit u (u ++ ['\n'])

theorem scan_pad {b : Text} (h : Padding b) (u v : Text) :
    scan (u ++ (b ++ '\n' :: v)) = scan (u ++ '\n' :: v) := by
  have begun : '\n' ∉ Text.begun u := Text.newline_not_mem_begun u
  have padded : '\n' ∉ Text.begun u ++ b := by simp [begun, h.newline]
  rw [scan_append u (b ++ '\n' :: v), scan_append u ('\n' :: v), ← List.append_assoc,
    Text.lines_append_cons padded, Text.lines_append_cons begun, List.map_cons, List.map_cons,
    Text.trimEnd_append_of_blank h.blank]

/-- The last line may lack its line feed: scanned with it, the text has the same events. -/
theorem scan_padLast {b : Text} (h : Padding b) (u : Text) : scan (u ++ b) = scan u := by
  calc scan (u ++ b) = scan (u ++ (b ++ ['\n'])) := by
        rw [← List.append_assoc, scan_concat_newline]
    _ = scan (u ++ ['\n']) := scan_pad h u []
    _ = scan u := scan_concat_newline u

theorem EndEdit.scan_eq {s t : Text} (h : EndEdit s t) : scan s = scan t := by
  cases h with
  | carriageReturn u v =>
      have single : Padding ['\r'] := ⟨by simp [Text.isBlank], by decide⟩
      exact (scan_pad single u v).symm
  | pad u v hb => exact (scan_pad hb u v).symm
  | padLast _ hb => exact (scan_padLast hb s).symm
  | newline => exact (scan_concat_newline s).symm

theorem scan_eq_of_eqvGen {s t : Text} (h : Relation.EqvGen EndEdit s t) : scan s = scan t := by
  induction h with
  | rel s t hedit => exact hedit.scan_eq
  | refl s => rfl
  | symm s t _ ih => exact ih.symm
  | trans s t u _ _ first second => exact first.trans second

end Event

namespace Reading

/-- Any number of changes at the ends of lines, made or taken back at any places, leave the events
of a text as they are, and so all that is read from it and reported by its readings. -/
theorem readings_ignore_lineEnds {s t : Text} (h : Relation.EqvGen Event.EndEdit s t) :
    Event.scan s = Event.scan t ∧
    (∀ policy levels, answerSets policy levels s = answerSets policy levels t) ∧
    (∀ policy levels, atomGroups policy levels s = atomGroups policy levels t) ∧
    (∀ direction levels, optimal direction levels s = optimal direction levels t) := by
  have events : Event.scan s = Event.scan t := Event.scan_eq_of_eqvGen h
  refine ⟨events, ?_, ?_, ?_⟩
  · intro policy levels
    rw [answerSets, answerSets, events]
  · intro policy levels
    rw [atomGroups, atomGroups, events]
  · intro direction levels
    rw [optimal, optimal, events]

def plainEnds : Text := "Answer\n\nAnswer\n".toList

def paddedEnds : Text := "Answer\r\n\u2003\nAnswer\t".toList

/-- Changes at a header, at a blank content line and at a header that the output ends with, where
a line feed is taken back. -/
theorem readings_ignore_lineEnds_padded :
    Relation.EqvGen Event.EndEdit plainEnds paddedEnds ∧
    Event.scan plainEnds = Event.scan paddedEnds ∧
    Event.scan paddedEnds = [.answer [], .answer []] := by
  have wide : Event.Padding ['\u2003'] := ⟨by simp [Text.isBlank], by decide⟩
  have tab : Event.Padding ['\t'] := ⟨by simp [Text.isBlank], by decide⟩
  have first : Event.EndEdit plainEnds "Answer\r\n\nAnswer\n".toList :=
    .carriageReturn "Answer".toList "\nAnswer\n".toList
  have second : Event.EndEdit "Answer\r\n\nAnswer\n".toList
      "Answer\r\n\u2003\nAnswer\n".toList :=
    .pad "Answer\r\n".toList "Answer\n".toList wide
  have third : Event.EndEdit "Answer\r\n\u2003\nAnswer".toList
      "Answer\r\n\u2003\nAnswer\n".toList := .newline _
  have last : Event.EndEdit "Answer\r\n\u2003\nAnswer".toList paddedEnds := .padLast _ tab
  have edits : Relation.EqvGen Event.EndEdit plainEnds paddedEnds :=
    .trans _ _ _ (.rel _ _ first) <| .trans _ _ _ (.rel _ _ second) <|
      .trans _ _ _ (.symm _ _ (.rel _ _ third)) (.rel _ _ last)
  exact ⟨edits, (readings_ignore_lineEnds edits).1, rfl⟩

end Reading
end Horizon
