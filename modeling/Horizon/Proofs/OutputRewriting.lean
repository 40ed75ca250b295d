import Horizon.Proofs.FluentRendering
import Horizon.Proofs.OutputEvents
import Horizon.Proofs.OutputReadings

/-!
Answers written as blocks again and read once more. A token of an answer line has no
blank and no mark of an answer in it; what a reader makes of such a token is rendered as
a token of the same kind, and is read from it again. So the blocks that are written are
found again one by one, and their contents give the answers they were written for.
-/

namespace Horizon

open Grammar

namespace Reading

/-- Answers as the engine prints them: each as a block with its number, from `i` on. -/
def transcriptFrom (i : Nat) : List (List Text) → Text
  | [] => []
  | ws :: answers =>
      Event.header i ++ '\n' :: (Text.join [' '] ws ++ '\n' :: transcriptFrom (i + 1) answers)

def transcript (answers : List (List Text)) : Text := transcriptFrom 1 answers

/-- A word that can stand on an answer line. -/
structure Token (w : Text) : Prop extends Text.Solid w where
  unmarked : ¬ Event.answerMark <:+: w

theorem unmarked_join {ws : List Text} (h : ∀ w ∈ ws, Token w) :
    ¬ Event.answerMark <:+: Text.join [' '] ws := by
  intro hin
  obtain ⟨w, hw, hmark⟩ := Text.infix_join (by decide) (by decide) hin
  exact (h w hw).unmarked hmark

/-- The blocks of a transcript are found one by one, each with its own line. -/
theorem scan_transcriptFrom (i : Nat) {answers : List (List Text)}
    (h : ∀ ws ∈ answers, ∀ w ∈ ws, Token w) :
    Event.scan (transcriptFrom i answers) =
      answers.map fun ws => .answer (Text.join [' '] ws) := by
  induction answers generalizing i with
  | nil => rfl
  | cons ws answers ih =>
      have hws : ∀ w ∈ ws, Token w := h ws List.mem_cons_self
      have solid : ∀ w ∈ ws, Text.Solid w := fun w hw => (hws w hw).toSolid
      have newline : '\n' ∉ Text.join [' '] ws := Text.newline_not_mem_join_solid solid
      have trimmed : Text.trimEnd (Text.join [' '] ws) = Text.join [' '] ws :=
        Text.trimEnd_join_solid solid
      rw [transcriptFrom, Event.scan_block i newline (unmarked_join hws), trimmed,
        ih (i + 1) fun vs hvs => h vs (List.mem_cons_of_mem ws hvs), List.map_cons]

/-! Tokens keep their kind when they are read and rendered. -/

/-- The words of an answer's content are tokens. -/
theorem token_of_mem_words {c w : Text} (hc : ¬ Event.answerMark <:+: c)
    (h : w ∈ Text.words c) : Token w := by
  obtain ⟨solid, hin⟩ := Text.mem_words h
  exact ⟨solid, fun hmark => hc (hmark.trans hin)⟩

theorem token_of_digits {s : Text} (h : Digits s) : Token s := by
  refine ⟨h.solid, ?_⟩
  intro hin
  have letter : 'A' ∈ s := hin.subset (by decide)
  cases h with
  | mk hne hd =>
      have digit := hd 'A' letter
      contradiction

/-- A part of a token that is not empty is a token. -/
theorem Token.of_infix {w s : Text} (h : Token w) (hin : s <:+: w) (hne : s ≠ []) : Token s :=
  ⟨⟨hne, fun c hc => h.no_blank c (hin.subset hc)⟩, fun hmark => h.unmarked (hmark.trans hin)⟩

/-- A name applied to parts is a token if all of these are, because the mark has none of
the characters that are written between them. -/
theorem token_application {n : Text} {parts : List Text} (hn : Token n)
    (hp : ∀ t ∈ parts, Token t) : Token (Atom.application n parts) := by
  refine ⟨Atom.solid_application hn.toSolid fun t ht => (hp t ht).toSolid, ?_⟩
  unfold Atom.application
  split
  · exact hn.unmarked
  · intro hin
    rcases Text.infix_append_cons (by decide) hin with hin | hin
    · exact hn.unmarked hin
    · rcases Text.infix_append_cons (by decide) hin with hin | hin
      · obtain ⟨t, ht, hmark⟩ := Text.infix_join (by decide) (by decide) hin
        exact (hp t ht).unmarked hmark
      · rw [List.infix_nil] at hin
        contradiction

theorem Token.of_isAtom {w n : Text} {parts : List Text} (hw : Token w)
    (h : IsAtom w n parts) : Token n ∧ ∀ t ∈ parts, Token t := by
  refine ⟨hw.of_infix h.name_prefix.isInfix h.name.ne_nil, ?_⟩
  intro t ht
  exact hw.of_infix (h.parts t ht).2 (h.parts t ht).1.ne_nil

/-- A value whose rendering is a token that is read as this value. -/
structure Rereadable {τ : Type} (read : Text → Except ReadError τ) (render : τ → Text)
    (x : τ) : Prop where
  token : Token (render x)
  read_render : read (render x) = .ok x

/-- Whatever is read from a token can be rendered and read again. -/
def Settled {τ : Type} (read : Text → Except ReadError τ) (render : τ → Text) : Prop :=
  ∀ w x, Token w → read w = .ok x → Rereadable read render x

theorem settled_atom : Settled Atom.read Atom.render := by
  intro w a hw h
  refine ⟨?_, Atom.read_render (Atom.wellFormed_of_read h)⟩
  have hatom := (Atom.read_eq_ok_iff w a).mp h
  rw [hw.trim_eq] at hatom
  obtain ⟨hn, hp⟩ := hw.of_isAtom hatom
  exact token_application hn hp

/-- The step may be written with fewer digits than it was read from. -/
theorem settled_fluent : Settled Fluent.read Fluent.render := by
  intro w f hw h
  obtain ⟨⟨n, hstep⟩, hf⟩ := Fluent.wellFormed_of_read h
  refine ⟨?_, Fluent.read_render hstep hf⟩
  obtain ⟨last, -, hatom, -⟩ := (Fluent.read_eq_ok_iff w f).mp h
  rw [hw.trim_eq] at hatom
  obtain ⟨hn, hp⟩ := hw.of_isAtom hatom
  have hrender : f.render = f.renderAt (Numeral.write n.toNat) := by
    simp [Fluent.render, hstep]
  rw [hrender]
  apply token_application hn
  intro t ht
  rcases List.mem_append.mp ht with ht | ht
  · exact hp t (List.mem_append_left [last] ht)
  · rw [List.mem_singleton] at ht
    rw [ht]
    exact token_of_digits (Numeral.digits_write n.toNat)

/-! Lines, over any reader of tokens. -/

section Lines

variable {τ : Type} {read : Text → Except ReadError τ} {render : τ → Text}

theorem rereadable_of_each (settled : Settled read render) {c : Text} {xs : List τ}
    (hc : ¬ Event.answerMark <:+: c) (h : each read (Text.words c) = .ok xs) :
    ∀ x ∈ xs, Rereadable read render x := by
  intro x hx
  obtain ⟨w, hw, hread⟩ := exists_word_of_mem h hx
  exact settled w x (token_of_mem_words hc hw) hread

theorem tokens_of_rereadable {xs : List τ} (h : ∀ x ∈ xs, Rereadable read render x) :
    ∀ w ∈ xs.map render, Token w := by
  intro w hw
  obtain ⟨x, hx, rfl⟩ := List.mem_map.mp hw
  exact (h x hx).token

theorem each_line {xs : List τ} (h : ∀ x ∈ xs, Rereadable read render x) :
    each read (Text.words (Text.join [' '] (xs.map render))) = .ok xs :=
  each_words_join (fun x hx => (h x hx).token.toSolid) fun x hx => (h x hx).read_render

end Lines

/-! Transcripts. -/

/-- Answers whose lines hold tokens, and are read as these answers, are found in order. -/
theorem value_collect_transcript {α : Type} {read : Text → Except ReadError α}
    {line : α → List Text} (policy : Policy) (levels : Levels) {as : List α}
    (tokens : ∀ a ∈ as, ∀ w ∈ line a, Token w)
    (reads : ∀ a ∈ as, read (Text.join [' '] (line a)) = .ok a) :
    (collect policy read levels [] false (Event.scan (transcript (as.map line)))).value = as := by
  have lines : ∀ ws ∈ as.map line, ∀ w ∈ ws, Token w := by
    intro ws hws
    obtain ⟨a, ha, rfl⟩ := List.mem_map.mp hws
    exact tokens a ha
  rw [transcript, scan_transcriptFrom 1 lines, List.map_map]
  exact value_collect_answers read (fun a => Text.join [' '] (line a)) reads

theorem value_atomGroups_transcript (policy : Policy) (levels : Levels)
    {groups : List (List Atom)}
    (h : ∀ g ∈ groups, ∀ a ∈ g, Rereadable Atom.read Atom.render a) :
    (atomGroups policy levels (transcript (groups.map fun g => g.map Atom.render))).value =
      groups :=
  value_collect_transcript policy levels (fun g hg => tokens_of_rereadable (h g hg))
    fun g hg => each_line (h g hg)

theorem value_answerSets_transcript (policy : Policy) (levels : Levels)
    {answers : List AnswerSet}
    (h : ∀ a ∈ answers, ∀ f ∈ a.fluents, Rereadable Fluent.read Fluent.render f) :
    (answerSets policy levels
      (transcript (answers.map fun a => a.fluents.map Fluent.render))).value = answers := by
  apply value_collect_transcript policy levels
  · exact fun a ha => tokens_of_rereadable (h a ha)
  · intro a ha
    rw [fluents_eq_ok_iff]
    exact each_line (h a ha)

theorem rereadable_of_mem_atomGroups {policy : Policy} {levels : Levels} {s : Text} :
    ∀ g ∈ (atomGroups policy levels s).value, ∀ a ∈ g, Rereadable Atom.read Atom.render a := by
  intro g hg
  obtain ⟨c, hc, hread⟩ := exists_of_mem_collect atoms hg
  exact rereadable_of_each settled_atom (Event.answer_mem_scan hc) hread

theorem rereadable_of_mem_answerSets {policy : Policy} {levels : Levels} {s : Text} :
    ∀ a ∈ (answerSets policy levels s).value, ∀ f ∈ a.fluents,
      Rereadable Fluent.read Fluent.render f := by
  intro a ha
  obtain ⟨c, hc, hread⟩ := exists_of_mem_collect fluents ha
  exact rereadable_of_each settled_fluent (Event.answer_mem_scan hc)
    ((fluents_eq_ok_iff c a).mp hread)

/-- Whatever was read from an output is read again from the transcript of its rendering,
as groups of atoms and as answer sets, under either policy. More generally a transcript is
read as the answers in it, if each of their tokens is read as what it was rendered from. -/
theorem reread_transcript (policy : Policy) (levels levels' : Levels) :
    (∀ s : Text, (atomGroups policy levels' (transcript
        ((atomGroups policy levels s).value.map fun g => g.map Atom.render))).value =
      (atomGroups policy levels s).value) ∧
    (∀ s : Text, (answerSets policy levels' (transcript
        ((answerSets policy levels s).value.map fun a => a.fluents.map Fluent.render))).value =
      (answerSets policy levels s).value) ∧
    (∀ groups : List (List Atom),
      (∀ g ∈ groups, ∀ a ∈ g, Rereadable Atom.read Atom.render a) →
      (atomGroups policy levels (transcript (groups.map fun g => g.map Atom.render))).value =
        groups) ∧
    (∀ answers : List AnswerSet,
      (∀ a ∈ answers, ∀ f ∈ a.fluents, Rereadable Fluent.read Fluent.render f) →
      (answerSets policy levels
        (transcript (answers.map fun a => a.fluents.map Fluent.render))).value = answers) := by
  refine ⟨?_, ?_, ?_, ?_⟩
  · exact fun s => value_atomGroups_transcript policy levels' rereadable_of_mem_atomGroups
  · exact fun s => value_answerSets_transcript policy levels' rereadable_of_mem_answerSets
  · exact fun groups h => value_atomGroups_transcript policy levels h
  · exact fun answers h => value_answerSets_transcript policy levels h

end Reading
end Horizon
