import Horizon.Fluent
import Horizon.Proofs.OutputReadings

/-!
What a reading of answers keeps and what it reports. The answers that can be read are kept
unless unsatisfiability takes all of them or an interruption the last one; every other answer
is reported once, with the first of its words that is refused.
-/

namespace Horizon

namespace ReadError

/-- The text that was refused. -/
def text : ReadError → Text
  | .malformedAtom t => t
  | .missingTimeStep t => t

/-- A message is one line with the refused text in it, if the text is on one line. -/
theorem message_split (e : ReadError) :
    ∃ before after, e.message = before ++ e.text ++ after ∧ '\n' ∉ before ∧ '\n' ∉ after := by
  cases e with
  | malformedAtom t =>
      exact ⟨"malformed atom `".toList, "`".toList, rfl, by decide, by decide⟩
  | missingTimeStep t =>
      exact ⟨"`".toList, "` has no trailing time step".toList, rfl, by decide, by decide⟩

theorem text_infix_message (e : ReadError) : e.text <:+: e.message := by
  obtain ⟨before, after, h, -, -⟩ := e.message_split
  exact ⟨before, after, h.symm⟩

theorem newline_not_mem_message {e : ReadError} (h : '\n' ∉ e.text) : '\n' ∉ e.message := by
  obtain ⟨before, after, heq, hbefore, hafter⟩ := e.message_split
  rw [heq, List.mem_append, List.mem_append, not_or, not_or]
  exact ⟨⟨hbefore, h⟩, hafter⟩

end ReadError

/-- A reader reports a text as it was given. -/
def Reader.Names {α : Type} (read : Text → Except ReadError α) : Prop :=
  ∀ w e, read w = .error e → e.text = w

theorem Atom.names_read : Reader.Names Atom.read := by
  intro w e h
  unfold Atom.read at h
  split at h
  · contradiction
  · cases h
    rfl

theorem Fluent.names_read : Reader.Names Fluent.read := by
  intro w e h
  unfold Fluent.read at h
  split at h
  · next e' he =>
      cases h
      exact Atom.names_read w e he
  · split at h
    · contradiction
    · cases h
      rfl

namespace Reading

/-- The contents of the answers among the events. -/
def contents (es : List Event) : List Text :=
  es.filterMap fun
    | .answer c => some c
    | _ => none

/-- One record for each answer that is refused. -/
def complaints {α : Type} (levels : Levels) (read : Text → Except ReadError α)
    (es : List Event) : List Record :=
  if levels.has .parse then
    (contents es).filterMap fun c => (refusal? read c).map fun e => .traced .parse (dropped e)
  else []

/-- The record of the last answer of a run that was interrupted. -/
def lastDropped (levels : Levels) : List Record :=
  (Traced.note levels .parse "Run interrupted; dropped its last answer".toList).records

section Collecting

variable {α : Type} (read : Text → Except ReadError α)

theorem complaints_cons_of_ok {levels : Levels} {c : Text} {a : α} (hc : read c = .ok a)
    (es : List Event) :
    complaints levels read (.answer c :: es) = complaints levels read es := by
  simp [complaints, contents, refusal?, hc]

theorem complaints_cons_of_error {levels : Levels} {c : Text} {e : ReadError}
    (hc : read c = .error e) (es : List Event) :
    complaints levels read (.answer c :: es) =
      (Traced.note levels .parse (dropped e)).records ++ complaints levels read es := by
  unfold complaints Traced.note
  split <;> simp [contents, refusal?, hc]

theorem records_finish (levels : Levels) (found : List α) (interrupted : Bool) :
    (finish levels found interrupted).records =
      if interrupted = true ∧ found ≠ [] then lastDropped levels else [] := by
  cases interrupted with
  | false => rfl
  | true => cases found <;> simp [finish, lastDropped]

/-- Each refused answer before the end of the reading is reported in its place, and the
loss of the last answer after all of them. -/
theorem records_collect (policy : Policy) (levels : Levels) (found : List α)
    (interrupted : Bool) (es : List Event) :
    (collect policy read levels found interrupted es).records =
      complaints levels read (considered es) ++
        if policy = .discard ∧ .unsatisfiable ∈ es then []
        else if (interrupted = true ∨ .interrupted ∈ considered es) ∧
          found.reverse ++ readable read (considered es) ≠ [] then lastDropped levels
        else [] := by
  induction es generalizing found interrupted with
  | nil => simp [collect, records_finish, considered, readable, complaints, contents]
  | cons e es ih =>
      cases e with
      | unsatisfiable =>
          cases policy with
          | discard => simp [collect, considered, complaints, contents]
          | keep => simp [collect, records_finish, considered, readable, complaints, contents]
      | interrupted => simp [collect, ih, considered, readable, complaints, contents]
      | unknown => simp [collect, ih, considered, readable, complaints, contents]
      | optimization c => simp [collect, ih, considered, readable, complaints, contents]
      | answer c =>
          have seen : considered (.answer c :: es) = .answer c :: considered es := rfl
          cases hc : read c with
          | ok a =>
              rw [seen, complaints_cons_of_ok read hc]
              simp [collect, hc, ih, readable, readable?]
          | error e =>
              rw [seen, complaints_cons_of_error read hc]
              simp [collect, hc, ih, readable, readable?]

end Collecting

/-- What the reading of all answers gives for the events `es`, where `read` takes the content
of an answer and `word` each word of it. -/
structure BlocksRead {α τ : Type} (policy : Policy) (levels : Levels)
    (read : Text → Except ReadError α) (word : Text → Except ReadError τ) (es : List Event)
    (out : Traced (List α)) : Prop where
  discarded : policy = .discard → .unsatisfiable ∈ es → out.value = []
  complete : ¬ (policy = .discard ∧ .unsatisfiable ∈ es) → .interrupted ∉ considered es →
    out.value = readable read (considered es)
  interrupted : ¬ (policy = .discard ∧ .unsatisfiable ∈ es) → .interrupted ∈ considered es →
    out.value = (readable read (considered es)).dropLast
  reported : out.records = complaints levels read (considered es) ++
    if ¬ (policy = .discard ∧ .unsatisfiable ∈ es) ∧ .interrupted ∈ considered es ∧
      readable read (considered es) ≠ [] then lastDropped levels else []
  named : ∀ c e, read c = .error e → ∃ before w after, Text.words c = before ++ w :: after ∧
    (∀ v ∈ before, ∃ x, word v = .ok x) ∧ word w = .error e ∧ e.text = w ∧
    w <:+: e.message ∧ '\n' ∉ e.message

theorem blocksRead_collect {α τ : Type} {read : Text → Except ReadError α}
    {word : Text → Except ReadError τ} (names : Reader.Names word)
    (refuses : ∀ c e, read c = .error e → each word (Text.words c) = .error e)
    (policy : Policy) (levels : Levels) (es : List Event) :
    BlocksRead policy levels read word es (collect policy read levels [] false es) where
  discarded := by
    intro hp hes
    rw [value_collect, if_pos ⟨hp, hes⟩]
  complete := by
    intro hkept hes
    rw [value_collect, if_neg hkept]
    simp [hes]
  interrupted := by
    intro hkept hes
    rw [value_collect, if_neg hkept]
    simp [hes]
  reported := by
    rw [records_collect]
    by_cases hkept : policy = .discard ∧ .unsatisfiable ∈ es <;> simp [hkept]
  named := by
    intro c e h
    have first := (each_eq_error_iff word (Text.words c) e).mp (refuses c e h)
    obtain ⟨before, w, after, hsplit, hw, hbefore⟩ :=
      (findSome?_refusal?_eq_some_iff word (Text.words c) e).mp first
    have hmem : w ∈ Text.words c := by simp [hsplit]
    have htext : e.text = w := names w e hw
    refine ⟨before, w, after, hsplit, hbefore, hw, htext, ?_, ?_⟩
    · rw [← htext]
      exact e.text_infix_message
    · apply ReadError.newline_not_mem_message
      rw [htext]
      intro hnewline
      have hblank := (Text.mem_words hmem).1.no_blank '\n' hnewline
      contradiction

/-- Both readings of all answers, of every output and under either policy: what they keep is
settled by the events before the first report of unsatisfiability, and each answer among
these that is refused is reported once, by its first bad word. -/
theorem answers_read_and_reported (policy : Policy) (levels : Levels) (s : Text) :
    BlocksRead policy levels fluents Fluent.read (Event.scan s) (answerSets policy levels s) ∧
    BlocksRead policy levels atoms Atom.read (Event.scan s) (atomGroups policy levels s) :=
  ⟨blocksRead_collect Fluent.names_read (fun c e => (fluents_eq_error_iff c e).mp) policy levels _,
    blocksRead_collect Atom.names_read (fun _ _ h => h) policy levels _⟩

end Reading
end Horizon
