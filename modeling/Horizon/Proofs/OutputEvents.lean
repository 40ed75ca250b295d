import Horizon.Output.Event
import Horizon.Proofs.AtomGrammar
import Horizon.Proofs.NumeralReading
import Horizon.Proofs.TextCuts

/-!
What the scanner finds. Lines with the mark of an answer introduce a block, and the first
line without it is found as the content whatever else it says, so no answer that is found has
the mark in it.
-/

namespace Horizon

namespace Event

/-- The two status lines that are compared as wholes have none of the marks inside a line, of which
that of an interruption counts first. -/
theorem classify_of_mentions {l : Text}
    (h : Text.mentions l interruptedMark = true ∨ Text.mentions l answerMark = true) :
    classify l =
      if Text.mentions l interruptedMark then .event .interrupted else .answerHeader := by
  have first : l ≠ unsatisfiableMark := by
    rintro rfl
    rcases h with h | h <;> contradiction
  have second : l ≠ unknownMark := by
    rintro rfl
    rcases h with h | h <;> contradiction
  rw [classify, if_neg first, if_neg second]
  split
  · rfl
  · next hnone => rw [if_pos (h.resolve_left hnone)]

theorem classify_eq_interrupted_iff (l : Text) :
    classify l = .event .interrupted ↔ interruptedMark <:+: l := by
  rw [← Text.mentions_iff_infix]
  constructor
  · intro h
    unfold classify at h
    repeat' split at h
    all_goals first | assumption | cases h
  · intro h
    rw [classify_of_mentions (.inl h), if_pos h]

theorem classify_eq_answerHeader_iff (l : Text) :
    classify l = .answerHeader ↔ answerMark <:+: l ∧ ¬ interruptedMark <:+: l := by
  rw [← Text.mentions_iff_infix, ← Text.mentions_iff_infix]
  constructor
  · intro h
    unfold classify at h
    repeat' split at h
    all_goals first | exact ⟨‹_›, ‹_›⟩ | cases h
  · rintro ⟨marked, uninterrupted⟩
    rw [classify_of_mentions (.inr marked), if_neg uninterrupted]

/-- Lines that introduce one answer. -/
structure HeaderRun (hs : List Text) : Prop where
  ne_nil : hs ≠ []
  newline : ∀ h ∈ hs, '\n' ∉ h
  marked : ∀ h ∈ hs, answerMark <:+: h
  uninterrupted : ∀ h ∈ hs.head?, ¬ interruptedMark <:+: h

/-- While an answer is awaited, lines with the mark are passed over. -/
theorem ofLines_marked {ls : List Text} (h : ∀ l ∈ ls, answerMark <:+: l) (ms : List Text) :
    ofLines true (ls ++ ms) = ofLines true ms := by
  induction ls with
  | nil => rfl
  | cons l ls ih =>
      have marked := h l List.mem_cons_self
      rw [← Text.mentions_iff_infix] at marked
      rw [List.cons_append, ofLines, if_pos marked]
      exact ih fun m hm => h m (List.mem_cons_of_mem l hm)

/-- After the headers an answer is awaited. -/
theorem HeaderRun.scan_append {hs : List Text} (h : HeaderRun hs) (r : Text) :
    scan (Text.unlines hs ++ r) = ofLines true ((Text.lines r).map Text.trimEnd) := by
  have solid : ∀ c ∈ answerMark.getLast?, Text.isBlank c = false := by
    rintro c ⟨⟩
    rfl
  have marked : ∀ l ∈ hs.map Text.trimEnd, answerMark <:+: l := by
    intro l hl
    obtain ⟨line, hline, rfl⟩ := List.mem_map.mp hl
    exact Text.infix_trimEnd solid (h.marked line hline)
  have first : ∀ l ∈ hs.head?, classify (Text.trimEnd l) = .answerHeader := by
    intro l hl
    rw [classify_eq_answerHeader_iff]
    refine ⟨marked _ (List.mem_map_of_mem (List.mem_of_mem_head? hl)), ?_⟩
    exact fun hin => h.uninterrupted l hl (hin.trans (Text.trimEnd_prefix l).isInfix)
  rw [scan, Text.lines_unlines_append h.newline, List.map_append]
  obtain ⟨l, ls, rfl⟩ := List.exists_cons_of_ne_nil h.ne_nil
  rw [List.map_cons, List.cons_append, ofLines, first l rfl]
  exact ofLines_marked (fun m hm => marked m (List.mem_cons_of_mem _ hm)) _

/-- A block is found whatever its content says, unless the content has the mark. -/
theorem HeaderRun.scan_content {hs : List Text} (h : HeaderRun hs) {c : Text} (newline : '\n' ∉ c)
    (unmarked : ¬ answerMark <:+: c) (r : Text) :
    scan (Text.unlines hs ++ (c ++ '\n' :: r)) = .answer (Text.trimEnd c) :: scan r := by
  have trimmed : Text.mentions (Text.trimEnd c) answerMark = false := by
    rw [Text.mentions_eq_false_iff]
    exact fun hin => unmarked (hin.trans (Text.trimEnd_prefix c).isInfix)
  rw [h.scan_append, Text.lines_append_cons newline]
  simp [ofLines, trimmed, scan]

/-! Headers with a number. -/

def headerStart : Text := "Answer: ".toList

/-- The line that introduces the answer of a number. -/
def header (i : Nat) : Text := headerStart ++ Numeral.write i

theorem mem_header {i : Nat} {c : Char} (h : c ∈ header i) :
    c ∈ headerStart ∨ c.isDigit = true := by
  rcases List.mem_append.mp h with h | h
  · exact .inl h
  · cases Numeral.digits_write i with
    | mk _ hd => exact .inr (hd c h)

/-- No header reports an interruption, because it has no `I`. -/
theorem headerRun_header (i : Nat) : HeaderRun [header i] where
  ne_nil := List.cons_ne_nil _ _
  newline := by
    intro l hl hmem
    rw [List.mem_singleton.mp hl] at hmem
    rcases mem_header hmem with h | h <;> contradiction
  marked := by
    intro l hl
    rw [List.mem_singleton.mp hl]
    exact ⟨[], ": ".toList ++ Numeral.write i, rfl⟩
  uninterrupted := by
    rintro l ⟨⟩ hin
    have hmem : 'I' ∈ header i := hin.subset (by decide)
    rcases mem_header hmem with h | h <;> contradiction

theorem header_append (i : Nat) (r : Text) :
    header i ++ '\n' :: r = Text.unlines [header i] ++ r := by
  simp [Text.unlines]

/-- After a header an answer is awaited. -/
theorem scan_header (i : Nat) (r : Text) :
    scan (header i ++ '\n' :: r) = ofLines true ((Text.lines r).map Text.trimEnd) := by
  rw [header_append, (headerRun_header i).scan_append]

theorem scan_block (i : Nat) {c : Text} (newline : '\n' ∉ c) (unmarked : ¬ answerMark <:+: c)
    (r : Text) :
    scan (header i ++ '\n' :: (c ++ '\n' :: r)) = .answer (Text.trimEnd c) :: scan r := by
  rw [header_append, (headerRun_header i).scan_content newline unmarked]

/-- A line with the mark is passed over as one more header. -/
theorem scan_block_marked (i : Nat) {c : Text} (newline : '\n' ∉ c)
    (marked : answerMark <:+: Text.trimEnd c) (r : Text) :
    scan (header i ++ '\n' :: (c ++ '\n' :: r)) = scan (header i ++ '\n' :: r) := by
  rw [← Text.mentions_iff_infix] at marked
  rw [scan_header, scan_header, Text.lines_append_cons newline]
  simp [ofLines, marked]

/-- No line is an answer by itself. -/
theorem classify_ne_answer (l c : Text) : classify l ≠ .event (.answer c) := by
  intro h
  unfold classify at h
  repeat' split at h
  all_goals cases h

/-- The content of an answer never has the mark that introduces answers. -/
theorem answer_mem_ofLines {c : Text} {awaiting : Bool} {ls : List Text}
    (h : .answer c ∈ ofLines awaiting ls) : ¬ answerMark <:+: c := by
  induction ls generalizing awaiting with
  | nil =>
      cases awaiting with
      | false => simp [ofLines] at h
      | true =>
          have hc : c = [] := by simpa [ofLines] using h
          rw [hc, List.infix_nil]
          decide
  | cons l ls ih =>
      cases awaiting with
      | true =>
          by_cases hl : Text.mentions l answerMark = true
          · simp only [ofLines, hl, if_true] at h
            exact ih h
          · simp only [ofLines, hl, Bool.false_eq_true, if_false, List.mem_cons,
              Event.answer.injEq] at h
            rcases h with rfl | h
            · rwa [Text.mentions_iff_infix] at hl
            · exact ih h
      | false =>
          simp only [ofLines] at h
          split at h
          · next e he =>
              rcases List.mem_cons.mp h with rfl | h
              · exact absurd he (classify_ne_answer l c)
              · exact ih h
          · exact ih h
          · exact ih h

theorem answer_mem_scan {c s : Text} (h : .answer c ∈ scan s) : ¬ answerMark <:+: c :=
  answer_mem_ofLines h

end Event
end Horizon
