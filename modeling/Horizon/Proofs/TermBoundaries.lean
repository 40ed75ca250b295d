import Horizon.Proofs.AtomReaderCompleteness

/-!
Where terms end. What is read as a term from the front of a text is read as the same term before
any other text that is empty or starts with a blank, a comma or a closing parenthesis. The terms of
a list are followed by nothing else, so each of them is read alone as it is read in its place.
-/

namespace Horizon
namespace Reader

open Grammar

/-- The characters that follow a term in a list. -/
def endsTerm (c : Char) : Bool := isSpace c || c == ',' || c == ')'

/-- Nothing follows, or a character that ends a term. -/
def EndsTerm (r : Text) : Prop := ∀ c ∈ r.head?, endsTerm c = true

/-- A text that is read as one term before whatever can follow a term. -/
structure SelfDelimiting (t : Text) : Prop where
  ne_nil : t ≠ []
  read : ∀ r, EndsTerm r → term (t ++ r) = some (t, r)

theorem EndsTerm.cons {c : Char} (h : endsTerm c = true) (r : Text) : EndsTerm (c :: r) := by
  simp [EndsTerm, h]

theorem endsTerm_spaces {b r : Text} (hb : Spaces b) (hr : EndsTerm r) : EndsTerm (b ++ r) := by
  cases b with
  | nil => exact hr
  | cons c b =>
      have hc : isSpace c = true := hb c List.mem_cons_self
      exact .cons (by simp [endsTerm, hc]) (b ++ r)

theorem EndsTerm.stopsAt {r : Text} (h : EndsTerm r) : Text.StopsAt goesOn r := by
  intro c hc
  have ends := h c hc
  simp only [endsTerm, isSpace, Bool.or_eq_true, beq_iff_eq] at ends
  rcases ends with ((((rfl | rfl) | rfl) | rfl) | rfl) | rfl <;> decide

/-- No term needs a bound of its own: the length of the text is enough. -/
theorem term_append {t r : Text} (ht : Term t) (hr : Text.StopsAt goesOn r) :
    term (t ++ r) = some (t, r) := by
  have hlt : t.length < (t ++ r).length + 1 := by
    rw [List.length_append]
    omega
  exact termWithin_append ht hlt r hr

theorem selfDelimiting_of_term {t : Text} (h : Term t) : SelfDelimiting t where
  ne_nil := h.ne_nil
  read _ hr := term_append h hr.stopsAt

/-! The terms of a list in their places. -/

/-- The place of a term in a text, where it is followed by the end of the text or by what ends
a term. -/
def StandsIn (t s : Text) : Prop := ∃ before after, s = before ++ t ++ after ∧ EndsTerm after

theorem StandsIn.append_left {t s : Text} (h : StandsIn t s) (u : Text) : StandsIn t (u ++ s) := by
  obtain ⟨before, after, rfl, hends⟩ := h
  exact ⟨u ++ before, after, by simp, hends⟩

theorem standsIn_item {a t b r : Text} (hb : Spaces b) (hr : EndsTerm r) :
    StandsIn t (a ++ t ++ b ++ r) :=
  ⟨a, b ++ r, by simp, endsTerm_spaces hb hr⟩

theorem standsIn_of_items {s r : Text} {parts : List Text} (h : Items s parts)
    (hr : EndsTerm r) : ∀ t ∈ parts, StandsIn t (s ++ r) := by
  induction h using Items.induction with
  | last ha ht hb =>
      intro t h
      rw [List.mem_singleton] at h
      subst h
      exact standsIn_item hb hr
  | @cons a t b u parts ha ht hb hu ih =>
      intro v h
      -- The first term is followed by blanks and a comma, and the others stand in the rest.
      rw [List.append_assoc, List.cons_append]
      rcases List.mem_cons.mp h with rfl | h
      · exact standsIn_item hb (.cons (by decide) (u ++ r))
      · exact ((ih v h).append_left [',']).append_left (a ++ t ++ b)

theorem standsIn_of_arguments {s : Text} {parts : List Text} (h : Arguments s parts) (r : Text) :
    ∀ t ∈ parts, StandsIn t (s ++ r) := by
  cases h with
  | none => simp
  | @some u _ h =>
      intro t ht
      have inside := standsIn_of_items h (.cons (by decide) r : EndsTerm (')' :: r)) t ht
      simpa using inside.append_left ['(']

/-- Terms are self-delimiting. Whatever is read as a term from the front of a text starts the text,
has a character at least, and is read as it is before any text that is empty or starts with a blank,
a comma or a closing parenthesis. The same holds of each text in a list that is read, and where it
stands in the list it is what a term is read as. -/
theorem term_selfDelimiting (s : Text) :
    (∀ t r, term s = some (t, r) → s = t ++ r ∧ SelfDelimiting t) ∧
    (∀ u parts r, argumentList s = some (u, parts, r) →
      s = u ++ r ∧ ∀ t ∈ parts, SelfDelimiting t ∧
        ∃ before after, s = before ++ t ++ after ∧ term (t ++ after) = some (t, after)) := by
  refine ⟨?_, ?_⟩
  · intro t r h
    exact (takes_termWithin (s.length + 1) s t r h).imp_right selfDelimiting_of_term
  · intro u parts r h
    obtain ⟨rfl, hargs⟩ := arguments_sound (takes_termWithin (s.length + 1)) h
    refine ⟨rfl, fun t ht => ?_⟩
    have self := selfDelimiting_of_term (hargs.parts t ht).1
    obtain ⟨before, after, hs, hends⟩ := standsIn_of_arguments hargs r t ht
    exact ⟨self, before, after, hs, self.read after hends⟩

/-- A term whose name is followed by a list, before a parenthesis that starts none. -/
def brokenCall : Text := "-f( \"(\\\"\" ,#inf)(1".toList

theorem term_selfDelimiting_brokenCall :
    term brokenCall = some ("-f( \"(\\\"\" ,#inf)".toList, "(1".toList) ∧
    term "-f( \"(\\\"\" ,#inf)\t)".toList = some ("-f( \"(\\\"\" ,#inf)".toList, "\t)".toList) ∧
    argumentList "( \"(\\\"\" ,#inf)(1".toList =
      some ("( \"(\\\"\" ,#inf)".toList, ["\"(\\\"\"".toList, "#inf".toList], "(1".toList) ∧
    term "\"(\\\"\",".toList = some ("\"(\\\"\"".toList, ",".toList) := by
  have hterm : term brokenCall = some ("-f( \"(\\\"\" ,#inf)".toList, "(1".toList) := rfl
  have hlist : argumentList "( \"(\\\"\" ,#inf)(1".toList =
      some ("( \"(\\\"\" ,#inf)".toList, ["\"(\\\"\"".toList, "#inf".toList], "(1".toList) := rfl
  have whole := ((term_selfDelimiting brokenCall).1 _ _ hterm).2
  have part := (((term_selfDelimiting _).2 _ _ _ hlist).2 _ List.mem_cons_self).1
  have blank : EndsTerm "\t)".toList := .cons (by decide) _
  have comma : EndsTerm ",".toList := .cons (by decide) _
  exact ⟨hterm, whole.read _ blank, hlist, part.read _ comma⟩

end Reader
end Horizon
