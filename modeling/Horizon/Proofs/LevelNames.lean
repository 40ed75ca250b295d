import Horizon.Proofs.AtomGrammar
import Horizon.Proofs.TextCuts
import Horizon.Proofs.TextPieces
import Horizon.Proofs.TraceLevels

/-!
Levels asked for by name. A list of names asks for a level if, somewhere between its commas, there
is nothing but blanks beside the name of the level or that of all levels. Lists that are put
together with a comma ask for what each of them asks for, so neither the order of their parts nor
what is repeated in them is a matter.
-/

namespace Horizon

theorem Text.toLower_of_isBlank {c : Char} (h : isBlank c = true) : c.toLower = c := by
  have small : ¬ (c.val ≥ 'A'.val ∧ c.val ≤ 'Z'.val) := by
    intro capital
    have letter : c.isAlpha = true := Grammar.isAlpha_iff_toNat.mpr (.inl capital)
    have graphic : Grammar.isNameChar c = true := by
      simp [Grammar.isNameChar, Char.isAlphanum, letter]
    rw [Grammar.isBlank_of_isNameChar graphic] at h
    contradiction
  exact dif_neg small

theorem Text.Solid.of_lower {w : Text} (h : Solid (lower w)) : Solid w := by
  refine ⟨?_, ?_⟩
  · rintro rfl
    exact h.ne_nil rfl
  · intro c hc
    cases hblank : isBlank c with
    | false => rfl
    | true =>
        have hlower : isBlank c.toLower = false := h.no_blank _ (List.mem_map_of_mem hc)
        rw [toLower_of_isBlank hblank, hblank] at hlower
        contradiction

namespace Level

/-- What the level is called in a list of names. -/
def name : Level → Text
  | .compile => "compile".toList
  | .invoke => "invoke".toList
  | .parse => "parse".toList

/-- The word is the name of the level or that of all levels, in any mixture of capitals and small
letters. -/
def CalledBy (level : Level) (word : Text) : Prop :=
  Text.lower word = level.name ∨ Text.lower word = "all".toList

/-- The list asks for the level: a word that calls it stands between commas of the list or its
ends, with nothing but blanks beside it. -/
def ListedIn (level : Level) (names : Text) : Prop :=
  ∃ left word right, Text.Between ',' (left ++ word ++ right) names ∧ level.CalledBy word ∧
    (∀ c ∈ left, Text.isBlank c = true) ∧ ∀ c ∈ right, Text.isBlank c = true

variable {level : Level} {word : Text}

theorem CalledBy.solid_lower (h : level.CalledBy word) :
    Text.Solid (Text.lower word) ∧ ',' ∉ Text.lower word := by
  rcases h with h | h <;> rw [h]
  · cases level <;> decide
  · decide

theorem CalledBy.solid (h : level.CalledBy word) : Text.Solid word :=
  h.solid_lower.1.of_lower

theorem CalledBy.no_comma (h : level.CalledBy word) : ',' ∉ word := by
  intro hcomma
  exact h.solid_lower.2 (List.mem_map_of_mem (f := Char.toLower) hcomma)

/-- Words between commas are the pieces of the list without the blanks around them. -/
theorem listedIn_iff_piece (level : Level) (names : Text) :
    level.ListedIn names ↔
      ∃ piece ∈ Text.pieces ',' names, level.CalledBy (Text.trim piece) := by
  constructor
  · rintro ⟨left, word, right, hbetween, hcalled, hleft, hright⟩
    have no_comma : ',' ∉ left ++ word ++ right := by
      intro hcomma
      simp only [List.mem_append] at hcomma
      rcases hcomma with (hcomma | hcomma) | hcomma
      · exact absurd (hleft ',' hcomma) (by decide)
      · exact hcalled.no_comma hcomma
      · exact absurd (hright ',' hcomma) (by decide)
    refine ⟨left ++ word ++ right, hbetween.mem_pieces no_comma, ?_⟩
    rwa [hcalled.solid.trim_append hleft hright]
  · rintro ⟨piece, hpiece, hcalled⟩
    obtain ⟨left, right, hsplit, hleft, hright⟩ := Text.exists_blanks_trim piece
    refine ⟨left, Text.trim piece, right, ?_, hcalled, hleft, hright⟩
    rw [← hsplit]
    exact (Text.mem_pieces_iff.mp hpiece).2

end Level

namespace Levels

@[simp] theorem has_none (level : Level) : none.has level = false := by
  cases level <;> rfl

@[simp] theorem has_union (a b : Levels) (level : Level) :
    (a.union b).has level = (a.has level || b.has level) := by
  cases level <;> rfl

theorem has_named_iff (word : Text) (level : Level) :
    (named word).has level = true ↔ level.CalledBy word := by
  simp only [named, Level.CalledBy]
  split_ifs with hall hcompile hinvoke hparse
  · exact iff_of_true (has_all level) (.inr hall)
  · rw [hcompile]
    cases level <;> decide
  · rw [hinvoke]
    cases level <;> decide
  · rw [hparse]
    cases level <;> decide
  · have unnamed : Text.lower word ≠ level.name := by cases level <;> assumption
    rw [has_none]
    exact iff_of_false Bool.false_ne_true (not_or.mpr ⟨unnamed, hall⟩)

/-- One name after another adds its levels, and none is taken back. -/
theorem has_foldl_union_iff {α : Type} (f : α → Levels) (as : List α) (levels : Levels)
    (level : Level) :
    (as.foldl (fun levels a => levels.union (f a)) levels).has level = true ↔
      levels.has level = true ∨ ∃ a ∈ as, (f a).has level = true := by
  induction as generalizing levels with
  | nil => simp
  | cons a as ih =>
      rw [List.foldl_cons, ih, has_union, Bool.or_eq_true, List.exists_mem_cons_iff, or_assoc]

theorem has_ofNames_iff_piece (names : Text) (level : Level) :
    (ofNames names).has level = true ↔
      ∃ piece ∈ Text.pieces ',' names, level.CalledBy (Text.trim piece) := by
  rw [ofNames, has_foldl_union_iff, has_none]
  simp only [has_named_iff, Bool.false_eq_true, false_or]

theorem has_ofNames_iff (names : Text) (level : Level) :
    (ofNames names).has level = true ↔ level.ListedIn names := by
  rw [has_ofNames_iff_piece, Level.listedIn_iff_piece]

instance (level : Level) (names : Text) : Decidable (level.ListedIn names) :=
  decidable_of_iff _ (has_ofNames_iff names level)

theorem has_ofNames_append_iff (a b : Text) (level : Level) :
    (ofNames (a ++ ',' :: b)).has level = true ↔
      (ofNames a).has level = true ∨ (ofNames b).has level = true := by
  simp only [has_ofNames_iff_piece, Text.pieces_append_cons, List.mem_append, or_and_right,
    exists_or]

theorem has_ofNames_join_iff (parts : List Text) (level : Level) :
    (ofNames (Text.join [','] parts)).has level = true ↔
      ∃ t ∈ parts, (ofNames t).has level = true := by
  induction parts with
  | nil => cases level <;> decide
  | cons t ts ih =>
      cases ts with
      | nil => simp
      | cons u us =>
          rw [Text.join_cons_cons, List.singleton_append, has_ofNames_append_iff, ih]
          simp only [List.exists_mem_cons_iff]

/-- A list of names asks for the levels that are called in it and for no others: some piece between
its commas is, without the blanks around it and in small letters, the name of the level or that of
all levels. Two lists with a comma between them ask for what either of them asks for. Put together
with commas in any order, as often as one likes and with parts among them that do not call the
level, they ask for no more and no less. -/
theorem ofNames_asks_for_listed (level : Level) :
    (∀ names, (ofNames names).has level = true ↔
      ∃ piece ∈ Text.pieces ',' names, Text.lower (Text.trim piece) = level.name ∨
        Text.lower (Text.trim piece) = "all".toList) ∧
    (∀ names, (ofNames names).has level = true ↔ level.ListedIn names) ∧
    (∀ a b, (ofNames (a ++ ',' :: b)).has level = true ↔
      (ofNames a).has level = true ∨ (ofNames b).has level = true) ∧
    ∀ a b parts, a ∈ parts → b ∈ parts →
      (∀ t ∈ parts, t = a ∨ t = b ∨ ¬ level.ListedIn t) →
      ((ofNames (Text.join [','] parts)).has level = true ↔
        (ofNames a).has level = true ∨ (ofNames b).has level = true) := by
  refine ⟨fun names => has_ofNames_iff_piece names level, fun names => has_ofNames_iff names level,
    fun a b => has_ofNames_append_iff a b level, ?_⟩
  intro a b parts ha hb others
  rw [has_ofNames_join_iff]
  constructor
  · rintro ⟨t, ht, hasked⟩
    rcases others t ht with rfl | rfl | unlisted
    · exact .inl hasked
    · exact .inr hasked
    · exact absurd ((has_ofNames_iff t level).mp hasked) unlisted
  · rintro (hasked | hasked)
    · exact ⟨a, ha, hasked⟩
    · exact ⟨b, hb, hasked⟩

def orderlyNames : Text := "Invoke, bogus".toList

def carelessNames : Text := "\u2003pArSe\u00A0,,COMPILE\r".toList

/-- A wide letter is no letter of a name, and a space without a width is no blank. -/
def unknownNames : Text := "all;parse,\uFF30arse,parse\u200B".toList

def mixedParts : List Text := [unknownNames, carelessNames, orderlyNames, [], orderlyNames]

theorem ofNames_asks_for_listed_mixed :
    orderlyNames ∈ mixedParts ∧ carelessNames ∈ mixedParts ∧
    (∀ t ∈ mixedParts, t = orderlyNames ∨ t = carelessNames ∨ ¬ Level.parse.ListedIn t) ∧
    (ofNames orderlyNames).has .parse = false ∧ (ofNames carelessNames).has .parse = true ∧
    (ofNames (Text.join [','] mixedParts)).has .parse = true := by
  have first : orderlyNames ∈ mixedParts := by decide
  have second : carelessNames ∈ mixedParts := by decide
  have others : ∀ t ∈ mixedParts, t = orderlyNames ∨ t = carelessNames ∨
      ¬ Level.parse.ListedIn t := by
    decide
  have asked : (ofNames carelessNames).has .parse = true := by decide
  have whole := (ofNames_asks_for_listed .parse).2.2.2 orderlyNames carelessNames mixedParts
    first second others
  exact ⟨first, second, others, by decide, asked, whole.mpr (.inr asked)⟩

end Levels
end Horizon
