import Horizon.Output.Reading
import Horizon.Proofs.TextSpans

/-!
The values of readings, said of whole lists of events. Going through the events with
what was found so far gives the readable answers before the first report of
unsatisfiability, or none, or all but the last, whatever the order of the events.
-/

namespace Horizon
namespace Reading

def readable? {α : Type} (read : Text → Except ReadError α) (c : Text) : Option α :=
  match read c with
  | .ok a => some a
  | .error _ => none

/-- A list of words is read as what each of them is read as. -/
theorem each_eq_ok_iff {α : Type} (read : Text → Except ReadError α) (ws : List Text)
    (xs : List α) : each read ws = .ok xs ↔ ws.map read = xs.map .ok := by
  induction ws generalizing xs with
  | nil => cases xs <;> simp [each]
  | cons w ws ih =>
      cases hw : read w with
      | error e => cases xs <;> simp [each, hw]
      | ok x =>
          cases xs with
          | nil => cases hws : each read ws <;> simp [each, hw, hws, Except.map]
          | cons y ys =>
              rw [List.map_cons, List.map_cons, List.cons.injEq, ← ih ys]
              cases hws : each read ws <;> simp [each, hw, hws, Except.map]

theorem exists_read_of_mem {α : Type} {read : Text → Except ReadError α} {ws : List Text}
    {xs : List α} (h : each read ws = .ok xs) {w : Text} (hw : w ∈ ws) :
    ∃ x ∈ xs, read w = .ok x := by
  have hmem : read w ∈ ws.map read := List.mem_map_of_mem hw
  rw [(each_eq_ok_iff read ws xs).mp h] at hmem
  obtain ⟨x, hx, heq⟩ := List.mem_map.mp hmem
  exact ⟨x, hx, heq.symm⟩

theorem exists_word_of_mem {α : Type} {read : Text → Except ReadError α} {ws : List Text}
    {xs : List α} (h : each read ws = .ok xs) {x : α} (hx : x ∈ xs) :
    ∃ w ∈ ws, read w = .ok x := by
  have hmem : .ok x ∈ ws.map read := by
    rw [(each_eq_ok_iff read ws xs).mp h]
    exact List.mem_map_of_mem hx
  exact List.mem_map.mp hmem

/-- Why a text is refused by a reader, if it is. -/
def refusal? {α : Type} (read : Text → Except ReadError α) (w : Text) : Option ReadError :=
  match read w with
  | .ok _ => none
  | .error e => some e

theorem refusal?_eq_some_iff {α : Type} (read : Text → Except ReadError α) (w : Text)
    (e : ReadError) : refusal? read w = some e ↔ read w = .error e := by
  cases hw : read w <;> simp [refusal?, hw]

theorem refusal?_eq_none_iff {α : Type} (read : Text → Except ReadError α) (w : Text) :
    refusal? read w = none ↔ ∃ x, read w = .ok x := by
  cases hw : read w <;> simp [refusal?, hw]

/-- The first word that is refused decides the error. -/
theorem each_eq_error_iff {α : Type} (read : Text → Except ReadError α) (ws : List Text)
    (e : ReadError) : each read ws = .error e ↔ ws.findSome? (refusal? read) = some e := by
  induction ws with
  | nil => simp [each]
  | cons w ws ih =>
      cases hw : read w with
      | error e' => simp [each, refusal?, hw]
      | ok x =>
          have rest : each read (w :: ws) = .error e ↔ each read ws = .error e := by
            cases hws : each read ws <;> simp [each, hw, hws, Except.map]
          rw [rest, ih, List.findSome?_cons, (refusal?_eq_none_iff read w).mpr ⟨x, hw⟩]

/-- The words before the first refused one are read. -/
theorem findSome?_refusal?_eq_some_iff {α : Type} (read : Text → Except ReadError α)
    (ws : List Text) (e : ReadError) :
    ws.findSome? (refusal? read) = some e ↔ ∃ before w after, ws = before ++ w :: after ∧
      read w = .error e ∧ ∀ v ∈ before, ∃ x, read v = .ok x := by
  simp only [List.findSome?_eq_some_iff, refusal?_eq_some_iff, refusal?_eq_none_iff]

/-- Renderings that are read as what they were rendered from. -/
theorem each_map_render {τ : Type} {read : Text → Except ReadError τ} {render : τ → Text}
    {xs : List τ} (reads : ∀ x ∈ xs, read (render x) = .ok x) :
    each read (xs.map render) = .ok xs := by
  rw [each_eq_ok_iff, List.map_map]
  exact List.map_congr_left reads

/-- Words that are read as what they were rendered from are read so from their line. -/
theorem each_words_join {τ : Type} {read : Text → Except ReadError τ} {render : τ → Text}
    {xs : List τ} (solid : ∀ x ∈ xs, Text.Solid (render x))
    (reads : ∀ x ∈ xs, read (render x) = .ok x) :
    each read (Text.words (Text.join [' '] (xs.map render))) = .ok xs := by
  rw [Text.words_join (List.forall_mem_map.mpr solid), each_map_render reads]

theorem fluents_eq_ok_iff (c : Text) (a : AnswerSet) :
    fluents c = .ok a ↔ each Fluent.read (Text.words c) = .ok a.fluents := by
  unfold fluents
  cases each Fluent.read (Text.words c) with
  | error e => simp [Except.map]
  | ok fs =>
      obtain ⟨gs⟩ := a
      simp [Except.map]

theorem fluents_eq_error_iff (c : Text) (e : ReadError) :
    fluents c = .error e ↔ each Fluent.read (Text.words c) = .error e := by
  unfold fluents
  cases each Fluent.read (Text.words c) <;> simp [Except.map]

theorem readable?_eq_some_iff {α : Type} (read : Text → Except ReadError α) (c : Text) (a : α) :
    readable? read c = some a ↔ read c = .ok a := by
  unfold readable?
  split
  · next b hb => simp [hb]
  · next e he => simp [he]

section Collecting

variable {α : Type} (read : Text → Except ReadError α)

/-- The contents of answers that can be read, in order. -/
def readable (es : List Event) : List α :=
  es.filterMap fun
    | .answer c => readable? read c
    | _ => none

/-- The events that a reading looks at. -/
def considered (es : List Event) : List Event := es.takeWhile (· ≠ .unsatisfiable)

theorem considered_append {es : List Event} (hu : .unsatisfiable ∉ es) (ds : List Event) :
    considered (es ++ ds) = es ++ considered ds := by
  apply List.takeWhile_append_of_pos
  intro e he
  have hne : e ≠ .unsatisfiable := by
    rintro rfl
    exact hu he
  simpa using hne

theorem considered_eq_self {es : List Event} (hu : .unsatisfiable ∉ es) : considered es = es := by
  have happend := considered_append hu []
  rw [List.append_nil] at happend
  exact happend.trans (List.append_nil es)

theorem value_finish (levels : Levels) (found : List α) (interrupted : Bool) :
    (finish levels found interrupted).value =
      if interrupted then found.reverse.dropLast else found.reverse := by
  cases interrupted with
  | false => rfl
  | true => cases found <;> simp [finish]

/-- Reading is settled by whether unsatisfiability is reported, by the readable answers
before that report, and by whether there is an interruption among them. -/
theorem value_collect (policy : Policy) (levels : Levels) (found : List α)
    (interrupted : Bool) (es : List Event) :
    (collect policy read levels found interrupted es).value =
      if policy = .discard ∧ .unsatisfiable ∈ es then []
      else if interrupted = true ∨ .interrupted ∈ considered es then
        (found.reverse ++ readable read (considered es)).dropLast
      else found.reverse ++ readable read (considered es) := by
  induction es generalizing found interrupted with
  | nil => simp [collect, value_finish, considered, readable]
  | cons e es ih =>
      cases e with
      | unsatisfiable =>
          cases policy with
          | discard => simp [collect]
          | keep => simp [collect, value_finish, considered, readable]
      | interrupted => simp [collect, ih, considered, readable]
      | unknown => simp [collect, ih, considered, readable]
      | optimization c => simp [collect, ih, considered, readable]
      | answer c =>
          cases hc : read c with
          | ok a => simp [collect, hc, ih, considered, readable, readable?]
          | error e => simp [collect, hc, ih, considered, readable, readable?]

/-- What is found was read from the content of an answer. -/
theorem exists_of_mem_collect {policy : Policy} {levels : Levels} {es : List Event} {a : α}
    (h : a ∈ (collect policy read levels [] false es).value) :
    ∃ c, .answer c ∈ es ∧ read c = .ok a := by
  have hmem : a ∈ readable read (considered es) := by
    rw [value_collect] at h
    split at h
    · contradiction
    · split at h
      · exact List.dropLast_subset _ h
      · exact h
  obtain ⟨e, he, hread⟩ := List.mem_filterMap.mp hmem
  have hes : e ∈ es := (List.takeWhile_subset _) he
  cases e with
  | answer c =>
      exact ⟨c, hes, (readable?_eq_some_iff read c a).mp hread⟩
  | _ => contradiction

theorem value_collect_answers (content : α → Text) {policy : Policy} {levels : Levels}
    {found as : List α} (h : ∀ a ∈ as, read (content a) = .ok a) :
    (collect policy read levels found false (as.map fun a => .answer (content a))).value =
      found.reverse ++ as := by
  induction as generalizing found with
  | nil => simp [collect, finish]
  | cons a as ih =>
      have ha := h a List.mem_cons_self
      have has := fun b hb => h b (List.mem_cons_of_mem a hb)
      simp [collect, ha, ih has]

end Collecting

end Reading
end Horizon
