import Horizon.Proofs.AnswerLines
import Horizon.Proofs.OutputEvents
import Horizon.Proofs.TextCuts

/-!
Outputs that are cut at a character, as when the engine is stopped while it prints. The lines
that are ended give the same events as before; the line that is begun may belong to a block,
and the block is then read from the part of its content that was printed.
-/

namespace Horizon

namespace Event

/-- What a line does: the event it gives, if any, and whether an answer is awaited after it. -/
def step : (awaiting : Bool) → Text → Option Event × Bool
  | true, l => if Text.mentions l answerMark then (none, true) else (some (.answer l), false)
  | false, l =>
      match classify l with
      | .event e => (some e, false)
      | .answerHeader => (none, true)
      | .noise => (none, false)

theorem ofLines_cons (awaiting : Bool) (l : Text) (ls : List Text) :
    ofLines awaiting (l :: ls) =
      (step awaiting l).1.toList ++ ofLines (step awaiting l).2 ls := by
  cases awaiting with
  | true =>
      by_cases hl : Text.mentions l answerMark = true <;> simp [ofLines, step, hl]
  | false =>
      cases hl : classify l <;> simp [ofLines, step, hl]

/-- The events that lines give whatever comes after them. -/
def settled : (awaiting : Bool) → List Text → List Event
  | _, [] => []
  | awaiting, l :: ls => (step awaiting l).1.toList ++ settled (step awaiting l).2 ls

/-- Whether an answer is awaited after the lines. -/
def awaits : (awaiting : Bool) → List Text → Bool
  | awaiting, [] => awaiting
  | awaiting, l :: ls => awaits (step awaiting l).2 ls

theorem ofLines_append (awaiting : Bool) (ls ms : List Text) :
    ofLines awaiting (ls ++ ms) = settled awaiting ls ++ ofLines (awaits awaiting ls) ms := by
  induction ls generalizing awaiting with
  | nil => rfl
  | cons l ls ih =>
      rw [List.cons_append, ofLines_cons, ih, settled, awaits, List.append_assoc]

/-- The lines of a text that are ended, as the scanner sees them. -/
def endedLines (s : Text) : List Text := (Text.lines (Text.ended s)).map Text.trimEnd

/-- The line that a text begins and does not end, as the scanner sees it. -/
def begunLine (s : Text) : Text := Text.trimEnd (Text.begun s)

theorem begun_ne_nil {s : Text} (h : begunLine s ≠ []) : Text.begun s ≠ [] := by
  intro hnil
  rw [begunLine, hnil] at h
  exact h rfl

/-- The events before a cut are kept, and the line that is cut decides what follows them. -/
theorem scan_append (s t : Text) :
    scan (s ++ t) = settled false (endedLines s) ++
      ofLines (awaits false (endedLines s))
        ((Text.lines (Text.begun s ++ t)).map Text.trimEnd) := by
  rw [scan, Text.lines_append, List.map_append, ofLines_append]
  rfl

/-- What is printed of the content of the block that a text ends in, if it ends in one. A
block is begun when a line mentions `Answer`, and ends with the line of its content. -/
def unfinished? (s : Text) : Option Text :=
  if awaits false (endedLines s) then
    some (if Text.mentions (begunLine s) answerMark then [] else begunLine s)
  else if classify (begunLine s) = .answerHeader then some []
  else none

/-- A blank line does nothing but end the content of a block, like the end of the text. -/
theorem ofLines_blank (awaiting : Bool) : ofLines awaiting [[]] = ofLines awaiting [] := by
  cases awaiting <;> rfl

theorem scan_cut (s : Text) :
    scan s = settled false (endedLines s) ++
      ofLines (awaits false (endedLines s)) [begunLine s] := by
  have hscan := scan_append s []
  rw [List.append_nil, List.append_nil] at hscan
  rw [hscan, begunLine]
  by_cases hs : Text.begun s = []
  · rw [hs]
    exact congrArg _ (ofLines_blank _).symm
  · rw [Text.lines_eq_singleton hs (Text.newline_not_mem_begun s)]
    rfl

theorem scan_eq_settled {s : Text} (hbegun : Text.begun s = [])
    (hawaits : awaits false (endedLines s) = false) : scan s = settled false (endedLines s) := by
  rw [scan_cut, hawaits, begunLine, hbegun]
  exact List.append_nil _

/-- Where a line and a block end, the events of what follows are those that it has alone. -/
theorem scan_append_of_settled {s : Text} (hbegun : Text.begun s = [])
    (hawaits : awaits false (endedLines s) = false) (t : Text) :
    scan (s ++ t) = scan s ++ scan t := by
  rw [scan_append, hawaits, hbegun, scan_eq_settled hbegun hawaits]
  rfl

/-- The block that a text ends in gives an answer all the same. -/
theorem scan_of_unfinished {s c : Text} (h : unfinished? s = some c) :
    scan s = settled false (endedLines s) ++ [.answer c] := by
  rw [scan_cut]
  unfold unfinished? at h
  cases hawaits : awaits false (endedLines s) with
  | true =>
      simp only [hawaits, if_true, Option.some.injEq] at h
      rw [← h]
      split <;> simp_all [ofLines]
  | false =>
      simp only [hawaits, Bool.false_eq_true, if_false] at h
      split at h
      · next hheader =>
          cases h
          simp [ofLines, hheader]
      · contradiction

theorem begun_of_unfinished {s c : Text} (h : unfinished? s = some c) (hc : c ≠ []) :
    awaits false (endedLines s) = true ∧ Text.mentions c answerMark = false ∧
      begunLine s = c := by
  unfold unfinished? at h
  split at h
  · next hawaits =>
      simp only [Option.some.injEq] at h
      split at h
      · exact absurd h.symm hc
      · next hmark =>
          rw [h] at hmark
          exact ⟨hawaits, by simpa using hmark, h⟩
  · split at h
    · cases h
      contradiction
    · contradiction

/-- A content line of which only blanks are missing gives the answer that it gives whole. -/
theorem scan_append_of_blank {s c t : Text} (h : unfinished? s = some c) (hc : c ≠ [])
    (ht : ∀ d ∈ Text.restOfLine t, Text.isBlank d = true) :
    ∃ es, scan (s ++ t) = settled false (endedLines s) ++ .answer c :: es := by
  obtain ⟨hawaits, hmark, hline⟩ := begun_of_unfinished h hc
  have hne : Text.begun s ≠ [] := begun_ne_nil (by rwa [hline])
  obtain ⟨more, hlines⟩ := Text.exists_lines_eq_cons hne (Text.newline_not_mem_begun s) t
  have whole : Text.trimEnd (Text.begun s ++ Text.restOfLine t) = c := by
    rw [Text.trimEnd_append_of_blank ht]
    exact hline
  rw [scan_append, hawaits, hlines, List.map_cons, whole]
  exact ⟨_, by rw [ofLines, if_neg (by simp [hmark])]⟩

/-- A text that ends outside of a block may have a status or a cost on its last line. -/
theorem scan_of_finished {s : Text} (h : unfinished? s = none) :
    awaits false (endedLines s) = false ∧
    (scan s = settled false (endedLines s) ∨
      ∃ e, classify (begunLine s) = .event e ∧
        scan s = settled false (endedLines s) ++ [e]) := by
  unfold unfinished? at h
  cases hawaits : awaits false (endedLines s) with
  | true => simp [hawaits] at h
  | false =>
      refine ⟨rfl, ?_⟩
      rw [scan_cut, hawaits]
      cases hline : classify (begunLine s) with
      | event e => exact .inr ⟨e, rfl, by simp [ofLines, hline]⟩
      | answerHeader => simp [hawaits, hline] at h
      | noise => exact .inl (by simp [ofLines, hline])

/-- An interruption that was printed before the cut is there when more is printed. -/
theorem interrupted_mem_scan_append {s : Text} (hawaits : awaits false (endedLines s) = false)
    (h : classify (begunLine s) = .event .interrupted) (t : Text) :
    .interrupted ∈ scan (s ++ t) := by
  rw [classify_eq_interrupted_iff] at h
  have hin : interruptedMark <:+: Text.begun s := h.trans (Text.trimEnd_prefix _).isInfix
  have hne : Text.begun s ≠ [] := by
    rintro hnil
    rw [hnil, List.infix_nil] at hin
    contradiction
  obtain ⟨more, hlines⟩ :=
    Text.exists_lines_eq_cons hne (Text.newline_not_mem_begun s) t
  have whole : classify (Text.trimEnd (Text.begun s ++ Text.restOfLine t)) =
      .event .interrupted := by
    rw [classify_eq_interrupted_iff]
    have solid : ∀ c ∈ interruptedMark.getLast?, Text.isBlank c = false := by
      rintro c ⟨⟩
      rfl
    exact Text.infix_trimEnd solid (List.infix_append_of_infix_left hin)
  rw [scan_append, hlines, hawaits, List.map_cons, ofLines_cons]
  simp [step, whole]

end Event

namespace Fluent

/-- No fluent that is read from a word is read from a longer word with the same start. -/
theorem eq_nil_of_read_append {w v : Text} {f g : Fluent} (hw : Text.Solid w)
    (hwv : Text.Solid (w ++ v)) (h : Fluent.read w = .ok f) (k : Fluent.read (w ++ v) = .ok g) :
    v = [] := by
  obtain ⟨last, -, hatom, -⟩ := (read_eq_ok_iff w f).mp h
  obtain ⟨last', -, katom, -⟩ := (read_eq_ok_iff (w ++ v) g).mp k
  rw [hw.trim_eq] at hatom
  rw [hwv.trim_eq] at katom
  exact hatom.eq_nil_of_append katom (by simp)

end Fluent

namespace Reading

/-- The cut falls inside a word. -/
structure CutsWord (s t : Text) : Prop where
  before : ∃ c ∈ s.getLast?, Text.isBlank c = false
  after : ∃ c ∈ t.head?, Text.isBlank c = false

theorem CutsWord.line {s t : Text} (h : CutsWord s t) (hne : Text.begun s ≠ []) :
    CutsWord (Text.begun s) (Text.restOfLine t) := by
  obtain ⟨⟨c, hc, hblank⟩, d, hd, hdblank⟩ := h
  constructor
  · refine ⟨c, ?_, hblank⟩
    rw [← Text.ended_append_begun s, List.getLast?_append_of_ne_nil _ hne] at hc
    exact hc
  · obtain ⟨r, rfl⟩ := List.head?_eq_some_iff.mp hd
    have hnewline : d ≠ '\n' := by
      rintro rfl
      contradiction
    exact ⟨d, by simp [Text.restOfLine, hnewline], hdblank⟩

/-- A content line that is cut inside a word is refused if the whole line is read. -/
theorem readable?_eq_none_of_cutsWord {s t : Text} {a : AnswerSet} (h : CutsWord s t)
    (whole : fluents (s ++ t) = .ok a) : readable? fluents s = none := by
  have solid : Text.Solid (Text.lastWord s) := Text.solid_lastWord h.before
  cases hs : readable? fluents s with
  | none => rfl
  | some b =>
      have part := (readable?_eq_some_iff fluents s b).mp hs
      rw [fluents_eq_ok_iff] at whole part
      obtain ⟨more, hwords⟩ := Text.exists_words_eq_cons solid t
      have cut : Text.lastWord s ∈ Text.words s := by
        have hsplit := Text.words_append s []
        rw [List.append_nil, List.append_nil, solid.words_eq] at hsplit
        simp [hsplit]
      have uncut : Text.lastWord s ++ t.takeWhile (fun c => !Text.isBlank c) ∈
          Text.words (s ++ t) := by
        rw [Text.words_append, hwords]
        simp
      obtain ⟨f, -, hf⟩ := exists_read_of_mem part cut
      obtain ⟨g, -, hg⟩ := exists_read_of_mem whole uncut
      have hnil := Fluent.eq_nil_of_read_append solid (Text.mem_words uncut).1 hf hg
      obtain ⟨c, hc, hblank⟩ := h.after
      obtain ⟨r, rfl⟩ := List.head?_eq_some_iff.mp hc
      simp [hblank] at hnil

section Collecting

variable {α : Type} (read : Text → Except ReadError α)

theorem readable_append (es ds : List Event) :
    readable read (es ++ ds) = readable read es ++ readable read ds :=
  List.filterMap_append

theorem value_collect_of_undisturbed {es : List Event} (hu : .unsatisfiable ∉ es)
    (hi : .interrupted ∉ es) (policy : Policy) (levels : Levels) :
    (collect policy read levels [] false es).value = readable read es := by
  rw [value_collect, considered_eq_self hu]
  simp [hu, hi]

theorem value_collect_prefix {es ds : List Event} (h : es <+: ds) (hu : .unsatisfiable ∉ ds)
    (hi : .interrupted ∉ ds) (policy : Policy) (levels : Levels) :
    (collect policy read levels [] false es).value <+:
      (collect policy read levels [] false ds).value := by
  have hue : .unsatisfiable ∉ es := fun he => hu (h.subset he)
  have hie : .interrupted ∉ es := fun he => hi (h.subset he)
  rw [value_collect_of_undisturbed read hue hie, value_collect_of_undisturbed read hu hi]
  obtain ⟨r, rfl⟩ := h
  rw [readable_append]
  exact List.prefix_append _ _

theorem value_collect_append_unsatisfiable {es : List Event} (hu : .unsatisfiable ∉ es)
    (hi : .interrupted ∉ es) (policy : Policy) (levels : Levels) :
    (collect policy read levels [] false (es ++ [.unsatisfiable])).value =
      if policy = .discard then [] else readable read es := by
  have before : considered (es ++ [.unsatisfiable]) = es := by
    rw [considered_append hu, considered, List.takeWhile_cons_of_neg (by simp), List.append_nil]
  rw [value_collect, before]
  simp [hi]

/-- A reading of a cut text gives what the whole text gives for the lines before the cut,
and what is printed of the block that the cut leaves open. -/
theorem value_collect_cut {s t : Text} (hu : .unsatisfiable ∉ Event.scan (s ++ t))
    (hi : .interrupted ∉ Event.scan (s ++ t)) (policy : Policy) (levels : Levels) :
    ∃ found, found <+: (collect policy read levels [] false (Event.scan (s ++ t))).value ∧
      (collect policy read levels [] false (Event.scan s)).value =
        found ++ ((Event.unfinished? s).bind (readable? read)).toList := by
  have before : Event.settled false (Event.endedLines s) <+: Event.scan (s ++ t) := by
    rw [Event.scan_append]
    exact List.prefix_append _ _
  have huE : .unsatisfiable ∉ Event.settled false (Event.endedLines s) :=
    fun he => hu (before.subset he)
  have hiE : .interrupted ∉ Event.settled false (Event.endedLines s) :=
    fun he => hi (before.subset he)
  have kept : readable read (Event.settled false (Event.endedLines s)) <+:
      (collect policy read levels [] false (Event.scan (s ++ t))).value := by
    rw [← value_collect_of_undisturbed read huE hiE policy levels]
    exact value_collect_prefix read before hu hi policy levels
  cases hopen : Event.unfinished? s with
  | some c =>
      refine ⟨_, kept, ?_⟩
      rw [Event.scan_of_unfinished hopen, value_collect_of_undisturbed read (by simp [huE])
        (by simp [hiE]), readable_append]
      cases hc : readable? read c <;> simp [readable, hc]
  | none =>
      obtain ⟨hawaits, hscan | ⟨e, hclass, hscan⟩⟩ := Event.scan_of_finished hopen
      · refine ⟨_, kept, ?_⟩
        rw [hscan, value_collect_of_undisturbed read huE hiE]
        simp
      · cases e with
        | unsatisfiable =>
            -- The line went on after the mark, but the reading of the cut text ends here.
            rw [hscan, value_collect_append_unsatisfiable read huE hiE]
            split
            · exact ⟨[], List.nil_prefix, rfl⟩
            · exact ⟨_, kept, by simp⟩
        | unknown | optimization _ =>
            refine ⟨_, kept, ?_⟩
            rw [hscan, value_collect_of_undisturbed read (by simp [huE]) (by simp [hiE]),
              readable_append]
            rfl
        | interrupted => exact absurd (Event.interrupted_mem_scan_append hawaits hclass t) hi
        | answer c => exact absurd hclass (Event.classify_ne_answer _ c)

end Collecting

/-- The answer sets of a cut output, where the whole output reports neither unsatisfiability
nor an interruption. All but the last are answer sets of the whole output, in order, and so
is the last one if the cut leaves no block open. A block that is left open is read from what
was printed of its content; this does no harm if only blanks are missing from the content
line, or if the line is cut inside a word and can be read as a whole. -/
theorem answerSets_cut (policy : Policy) (levels : Levels) (s t : Text)
    (hu : .unsatisfiable ∉ Event.scan (s ++ t)) (hi : .interrupted ∉ Event.scan (s ++ t)) :
    let cut := (answerSets policy levels s).value
    let whole := (answerSets policy levels (s ++ t)).value
    cut.dropLast <+: whole ∧
    (Event.unfinished? s = none → cut <+: whole) ∧
    (∀ c, Event.unfinished? s = some c →
      ∃ found, found <+: whole ∧ cut = found ++ (readable? fluents c).toList) ∧
    (∀ c, Event.unfinished? s = some c → c ≠ [] →
      (∀ d ∈ Text.restOfLine t, Text.isBlank d = true) ∨
        (CutsWord s t ∧ ∃ a, fluents (Text.begun s ++ Text.restOfLine t) = .ok a) →
      cut <+: whole) := by
  intro cut whole
  obtain ⟨found, hfound, hcut⟩ : ∃ found, found <+: whole ∧
      cut = found ++ ((Event.unfinished? s).bind (readable? fluents)).toList :=
    value_collect_cut fluents hu hi policy levels
  refine ⟨?_, ?_, ?_, ?_⟩
  · rw [hcut]
    cases (Event.unfinished? s).bind (readable? fluents) with
    | none =>
        rw [Option.toList_none, List.append_nil]
        exact (List.dropLast_prefix found).trans hfound
    | some a =>
        rw [Option.toList_some, List.dropLast_concat]
        exact hfound
  · intro hopen
    rw [hopen, Option.bind_none, Option.toList_none, List.append_nil] at hcut
    rwa [hcut]
  · intro c hopen
    rw [hopen] at hcut
    exact ⟨found, hfound, hcut⟩
  · rintro c hopen hc (hblank | ⟨hword, a, ha⟩)
    · obtain ⟨es, hscan⟩ := Event.scan_append_of_blank hopen hc hblank
      have hprefix : Event.scan s <+: Event.scan (s ++ t) := by
        rw [hscan, Event.scan_of_unfinished hopen]
        exact (List.prefix_append_right_inj _).mpr (List.prefix_append [.answer c] es)
      exact value_collect_prefix fluents hprefix hu hi policy levels
    · -- The line ends with a character that is no blank, so nothing of it was trimmed.
      have hbegun := (Event.begun_of_unfinished hopen hc).2.2
      have hne : Text.begun s ≠ [] := Event.begun_ne_nil (by rwa [hbegun])
      have hline := hword.line hne
      have htrim : Event.begunLine s = Text.begun s := by
        obtain ⟨d, hd, hblank⟩ := hline.before
        apply Text.trimEnd_eq_self
        intro e he
        rw [Option.mem_unique he hd]
        exact hblank
      rw [hopen, Option.bind_some, ← hbegun, htrim, readable?_eq_none_of_cutsWord hline ha,
        Option.toList_none, List.append_nil] at hcut
      rwa [hcut]

def cutInNumeral : Text := "Answer: 1\np(1)\nAnswer: 2\ngo(b,1) at(b,1".toList

def restOfNumeral : Text := "2)\nOptimization: 3\n".toList

theorem answerSets_cutInNumeral :
    .unsatisfiable ∉ Event.scan (cutInNumeral ++ restOfNumeral) ∧
    .interrupted ∉ Event.scan (cutInNumeral ++ restOfNumeral) ∧
    Event.unfinished? cutInNumeral = some "go(b,1) at(b,1".toList ∧
    (answerSets .discard Levels.none cutInNumeral).value <+:
      (answerSets .discard Levels.none (cutInNumeral ++ restOfNumeral)).value := by
  have hu : .unsatisfiable ∉ Event.scan (cutInNumeral ++ restOfNumeral) := by decide
  have hi : .interrupted ∉ Event.scan (cutInNumeral ++ restOfNumeral) := by decide
  have hopen : Event.unfinished? cutInNumeral = some "go(b,1) at(b,1".toList := rfl
  have hword : CutsWord cutInNumeral restOfNumeral := ⟨⟨'1', rfl, rfl⟩, '2', rfl, rfl⟩
  have whole : fluents (Text.begun cutInNumeral ++ Text.restOfLine restOfNumeral) =
      .ok ⟨[⟨⟨"go".toList, ["b".toList]⟩, some 1⟩, ⟨⟨"at".toList, ["b".toList]⟩, some 12⟩]⟩ := rfl
  have cut := (answerSets_cut .discard Levels.none cutInNumeral restOfNumeral hu hi).2.2.2
  exact ⟨hu, hi, hopen, cut _ hopen (by simp) (.inr ⟨hword, _, whole⟩)⟩

def cutBetweenFluents : Text := "Answer: 1\ngo(b,1)".toList

/-- The part of the answer that was printed is read as an answer of its own. -/
theorem answerSets_cutBetweenFluents :
    .unsatisfiable ∉ Event.scan (cutBetweenFluents ++ " at(b,1)\n".toList) ∧
    .interrupted ∉ Event.scan (cutBetweenFluents ++ " at(b,1)\n".toList) ∧
    (answerSets .discard Levels.none cutBetweenFluents).value =
      [⟨[⟨⟨"go".toList, ["b".toList]⟩, some 1⟩]⟩] ∧
    ¬ (answerSets .discard Levels.none cutBetweenFluents).value <+:
      (answerSets .discard Levels.none (cutBetweenFluents ++ " at(b,1)\n".toList)).value := by
  have cut : (answerSets .discard Levels.none cutBetweenFluents).value =
      [⟨[⟨⟨"go".toList, ["b".toList]⟩, some 1⟩]⟩] := rfl
  have whole : (answerSets .discard Levels.none
      (cutBetweenFluents ++ " at(b,1)\n".toList)).value =
      [⟨[⟨⟨"go".toList, ["b".toList]⟩, some 1⟩, ⟨⟨"at".toList, ["b".toList]⟩, some 1⟩]⟩] := rfl
  refine ⟨by decide, by decide, cut, ?_⟩
  rw [cut, whole]
  simp

end Reading
end Horizon
