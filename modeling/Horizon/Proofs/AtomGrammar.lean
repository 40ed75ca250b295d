import Horizon.Atom.Basic
import Horizon.Atom.Grammar
import Horizon.Proofs.TextSpans

/-!
What the grammar of atoms says about the texts it derives: how they start and end, that
the parts of a list lie inside it, and that a rendered atom is derived exactly when its
name and its arguments are. Lists are reasoned about through an induction of their own,
so that no proof has to descend into the terms beside them.
-/

namespace Horizon
namespace Grammar

/-! The classes of characters. -/

theorem isNameChar_of_isNameStart {c : Char} (h : isNameStart c = true) :
    isNameChar c = true := by
  simp only [isNameStart, isNameChar, Bool.or_eq_true] at h ⊢
  rcases h with h | h
  · simp [Char.isAlphanum, h]
  · simp [h]

theorem isNameChar_of_isDigit {c : Char} (h : c.isDigit = true) : isNameChar c = true := by
  simp [isNameChar, Char.isAlphanum, h]

/-- Letters lie in two runs of character codes. -/
theorem isAlpha_iff_toNat {c : Char} :
    c.isAlpha = true ↔ (65 ≤ c.toNat ∧ c.toNat ≤ 90) ∨ (97 ≤ c.toNat ∧ c.toNat ≤ 122) := by
  change (decide (c.val ≥ 'A'.val ∧ c.val ≤ 'Z'.val) ||
    (decide (c.val ≥ 'a'.val) && decide (c.val ≤ 'z'.val))) = true ↔ _
  simp only [Bool.or_eq_true, Bool.and_eq_true, decide_eq_true_eq, ge_iff_le,
    UInt32.le_iff_toNat_le]
  exact Iff.rfl

theorem isDigit_of_isAlpha {c : Char} (h : c.isAlpha = true) : c.isDigit = false := by
  cases hd : c.isDigit with
  | false => rfl
  | true =>
      have digit : c.toNat ≤ 57 := (Char.isDigit_iff_toNat.mp hd).2
      have letter := isAlpha_iff_toNat.mp h
      omega

theorem isDigit_of_isNameStart {c : Char} (h : isNameStart c = true) : c.isDigit = false := by
  simp only [isNameStart, Bool.or_eq_true, beq_iff_eq] at h
  rcases h with h | rfl
  · exact isDigit_of_isAlpha h
  · decide

/-- A character above the space in ASCII is no blank. -/
theorem isBlank_of_graphic {c : Char} (low : 0x20 < c.toNat) (high : c.toNat < 0x7F) :
    Text.isBlank c = false := by
  simp [Text.isBlank]
  omega

theorem isNameChar_graphic {c : Char} (h : isNameChar c = true) :
    0x20 < c.toNat ∧ c.toNat < 0x7F := by
  simp only [isNameChar, Char.isAlphanum, Bool.or_eq_true, beq_iff_eq] at h
  rcases h with ((letter | digit) | rfl) | rfl
  · have letter := isAlpha_iff_toNat.mp letter
    omega
  · obtain ⟨low, high⟩ : 48 ≤ c.toNat ∧ c.toNat ≤ 57 := Char.isDigit_iff_toNat.mp digit
    omega
  · decide
  · decide

theorem isBlank_of_isNameChar {c : Char} (h : isNameChar c = true) : Text.isBlank c = false :=
  isBlank_of_graphic (isNameChar_graphic h).1 (isNameChar_graphic h).2

/-- The characters a term starts with. -/
def isTermStart (c : Char) : Bool :=
  isNameStart c || c.isDigit || c == '-' || c == '"' || c == '#' || c == '('

theorem isTermStart_of_isSpace {c : Char} (h : isSpace c = true) : isTermStart c = false := by
  simp only [isSpace, Bool.or_eq_true, beq_iff_eq] at h
  rcases h with ((rfl | rfl) | rfl) | rfl <;> decide

theorem isSpace_of_isTermStart {c : Char} (h : isTermStart c = true) : isSpace c = false := by
  cases hc : isSpace c with
  | false => rfl
  | true => rw [isTermStart_of_isSpace hc] at h; contradiction

/-! Lists of terms. -/

/-- Induction over a list of terms from its first term on. -/
@[elab_as_elim]
theorem Items.induction {motive : (s : Text) → (parts : List Text) → Items s parts → Prop}
    (last : ∀ {a t b} (ha : Spaces a) (ht : Term t) (hb : Spaces b),
      motive (a ++ t ++ b) [t] (.last ha ht hb))
    (cons : ∀ {a t b u parts} (ha : Spaces a) (ht : Term t) (hb : Spaces b)
      (hu : Items u parts), motive u parts hu →
      motive (a ++ t ++ b ++ ',' :: u) (t :: parts) (.cons ha ht hb hu))
    {s : Text} {parts : List Text} (h : Items s parts) : motive s parts h := by
  induction parts generalizing s with
  | nil => cases h
  | cons t parts ih =>
      cases h with
      | last ha ht hb => exact last ha ht hb
      | cons ha ht hb hu => exact cons ha ht hb hu (ih hu)

/-- What may follow one item of a list: nothing, or a comma and a list again. -/
inductive MoreItems : Text → List Text → Prop
  | none : MoreItems [] []
  | comma {s : Text} {parts : List Text} : Items s parts → MoreItems (',' :: s) parts

theorem Items.of_more {a t b s : Text} {parts : List Text} (ha : Spaces a) (ht : Term t)
    (hb : Spaces b) (h : MoreItems s parts) : Items (a ++ t ++ b ++ s) (t :: parts) := by
  cases h with
  | none => simpa using Items.last ha ht hb
  | comma hs => exact .cons ha ht hb hs

theorem Items.split {s : Text} {parts : List Text} (h : Items s parts) :
    ∃ a t b r more, s = a ++ t ++ b ++ r ∧ parts = t :: more ∧
      Spaces a ∧ Term t ∧ Spaces b ∧ MoreItems r more := by
  cases h with
  | @last a t b ha ht hb => exact ⟨a, t, b, [], [], by simp, rfl, ha, ht, hb, .none⟩
  | @cons a t b u more ha ht hb hu => exact ⟨a, t, b, _, more, rfl, rfl, ha, ht, hb, .comma hu⟩

theorem Items.parts {s : Text} {parts : List Text} (h : Items s parts) :
    ∀ t ∈ parts, Term t ∧ t <:+: s := by
  induction h using Items.induction with
  | last ha ht hb =>
      intro t h
      rw [List.mem_singleton] at h
      subst h
      exact ⟨ht, List.infix_append _ _ _⟩
  | cons ha ht hb hu ih =>
      intro t h
      rcases List.mem_cons.mp h with rfl | h
      · exact ⟨ht, List.infix_append_of_infix_left (List.infix_append _ _ _)⟩
      · have hin := ih t h
        exact ⟨hin.1, List.infix_append_of_infix_right (List.infix_cons hin.2)⟩

theorem Arguments.parts {s : Text} {parts : List Text} (h : Arguments s parts) :
    ∀ t ∈ parts, Term t ∧ t <:+: s := by
  cases h with
  | none => simp
  | some h =>
      intro t ht
      have hin := h.parts t ht
      exact ⟨hin.1, List.infix_cons (List.infix_append_of_infix_left hin.2)⟩

/-- A parenthesized list is longer than each of its parts. -/
theorem Arguments.length_lt {s : Text} {parts : List Text} (h : Arguments s parts) :
    ∀ t ∈ parts, t.length < s.length := by
  cases h with
  | none => simp
  | some h =>
      intro t ht
      have hle := (h.parts t ht).2.length_le
      simp only [List.length_cons, List.length_append]
      omega

theorem Arguments.head {s : Text} {parts : List Text} (h : Arguments s parts) :
    ∃ r, s = '(' :: r := by
  cases h with
  | none => exact ⟨_, rfl⟩
  | some h => exact ⟨_, rfl⟩

theorem Arguments.last {s : Text} {parts : List Text} (h : Arguments s parts) :
    ∀ c ∈ s.getLast?, c = ')' := by
  cases h with
  | none => simp
  | some h =>
      intro c hc
      simpa [List.getLast?_cons, eq_comm] using hc

/-- Terms joined by commas alone are a list with no blanks in it. -/
theorem items_join {parts : List Text} (hne : parts ≠ []) (h : ∀ t ∈ parts, Term t) :
    Items (Text.join [','] parts) parts := by
  have noSpaces : Spaces [] := by simp [Spaces]
  induction parts with
  | nil => exact absurd rfl hne
  | cons t parts ih =>
      have ht : Term t := h t List.mem_cons_self
      cases parts with
      | nil => simpa using Items.last noSpaces ht noSpaces
      | cons u us =>
          have hu := ih (by simp) fun v hv => h v (List.mem_cons_of_mem t hv)
          simpa [Text.join_cons_cons] using Items.cons noSpaces ht noSpaces hu

/-! How names, terms and atoms start and end. -/

theorem Identifier.head {s : Text} (h : Identifier s) :
    ∃ c r, s = c :: r ∧ isNameStart c = true := by
  cases h with
  | mk hc hr => exact ⟨_, _, rfl, hc⟩

theorem Identifier.nameChars {s : Text} (h : Identifier s) : ∀ c ∈ s, isNameChar c = true := by
  cases h with
  | mk hc hr =>
      intro c h
      rcases List.mem_cons.mp h with rfl | h
      · exact isNameChar_of_isNameStart hc
      · exact hr c h

theorem Digits.solid {s : Text} (h : Digits s) : Text.Solid s := by
  cases h with
  | mk hne hd =>
      exact ⟨hne, fun c hc => isBlank_of_isNameChar (isNameChar_of_isDigit (hd c hc))⟩

theorem Name.head {s : Text} (h : Name s) :
    ∃ c r, s = c :: r ∧ (isNameStart c = true ∨ c = '-') := by
  cases h with
  | plain h =>
      obtain ⟨c, r, rfl, hc⟩ := h.head
      exact ⟨c, r, rfl, .inl hc⟩
  | negated h => exact ⟨_, _, rfl, .inr rfl⟩

theorem Integer.head {s : Text} (h : Integer s) :
    ∃ c r, s = c :: r ∧ (c.isDigit = true ∨ c = '-') := by
  cases h with
  | plain h =>
      cases h with
      | mk hne hd =>
          obtain ⟨c, r, rfl⟩ := List.exists_cons_of_ne_nil hne
          exact ⟨c, r, rfl, .inl (hd c List.mem_cons_self)⟩
  | negative h => exact ⟨_, _, rfl, .inr rfl⟩

theorem Term.head {s : Text} (h : Term s) : ∃ c r, s = c :: r ∧ isTermStart c = true := by
  cases h with
  | quoted h => cases h with | mk h => exact ⟨_, _, rfl, by decide⟩
  | integer h =>
      obtain ⟨c, r, rfl, hc | rfl⟩ := h.head
      · exact ⟨c, r, rfl, by simp [isTermStart, hc]⟩
      · exact ⟨_, r, rfl, by decide⟩
  | infimum => exact ⟨_, _, rfl, by decide⟩
  | supremum => exact ⟨_, _, rfl, by decide⟩
  | name h =>
      obtain ⟨c, r, rfl, hc | rfl⟩ := h.head
      · exact ⟨c, r, rfl, by simp [isTermStart, hc]⟩
      · exact ⟨_, r, rfl, by decide⟩
  | compound h _ =>
      obtain ⟨c, r, rfl, hc | rfl⟩ := h.head
      · exact ⟨c, _, rfl, by simp [isTermStart, hc]⟩
      · exact ⟨_, _, rfl, by decide⟩
  | tuple h =>
      obtain ⟨r, rfl⟩ := h.head
      exact ⟨_, r, rfl, by decide⟩

theorem Name.chars {s : Text} (h : Name s) :
    ∀ c ∈ s, isNameChar c = true ∨ c = '-' := by
  cases h with
  | plain h => exact fun c hc => .inl (h.nameChars c hc)
  | negated h =>
      intro c hc
      rcases List.mem_cons.mp hc with rfl | hc
      · exact .inr rfl
      · exact .inl (h.nameChars c hc)

theorem Name.no_blank {s : Text} (h : Name s) : ∀ c ∈ s, Text.isBlank c = false := by
  intro c hc
  rcases h.chars c hc with hc | rfl
  · exact isBlank_of_isNameChar hc
  · decide

theorem Name.ne_nil {s : Text} (h : Name s) : s ≠ [] := by
  obtain ⟨c, r, rfl, -⟩ := h.head
  simp

theorem Name.solid {s : Text} (h : Name s) : Text.Solid s := ⟨h.ne_nil, h.no_blank⟩

theorem Term.ne_nil {s : Text} (h : Term s) : s ≠ [] := by
  obtain ⟨c, r, rfl, -⟩ := h.head
  simp

/-! Atoms. -/

theorem IsAtom.name {s n : Text} {parts : List Text} (h : IsAtom s n parts) : Name n := by
  cases h with
  | bare h => exact h
  | applied h _ => exact h

theorem IsAtom.term {s n : Text} {parts : List Text} (h : IsAtom s n parts) : Term s := by
  cases h with
  | bare h => exact .name h
  | applied h ha => exact .compound h ha

theorem IsAtom.name_prefix {s n : Text} {parts : List Text} (h : IsAtom s n parts) :
    n <+: s := by
  cases h with
  | bare h => exact List.prefix_rfl
  | applied h _ => exact List.prefix_append _ _

theorem IsAtom.stopsAt_isBlank {s n : Text} {parts : List Text} (h : IsAtom s n parts) :
    Text.StopsAt Text.isBlank s := by
  obtain ⟨c, r, hn, -⟩ := h.name.head
  obtain ⟨v, rfl⟩ := h.name_prefix
  have hc : Text.isBlank c = false := h.name.no_blank c (by simp [hn])
  simpa [hn] using hc

theorem IsAtom.parts {s n : Text} {parts : List Text} (h : IsAtom s n parts) :
    ∀ t ∈ parts, Term t ∧ t <:+: s := by
  cases h with
  | bare h => simp
  | applied _ h =>
      intro t ht
      have hin := h.parts t ht
      exact ⟨hin.1, List.infix_append_of_infix_right hin.2⟩

/-! Marks. Without the characters between the parts of an atom, a mark lies in one of them. -/

/-- The characters that stand around the terms of a list. -/
def isPunctuation (c : Char) : Bool := isSpace c || c == '(' || c == ')' || c == ','

theorem not_mem_of_isPunctuation {m : Text} (hm : m.any isPunctuation = false) {d : Char}
    (hd : isPunctuation d = true) : d ∉ m := by
  intro hmem
  exact List.any_eq_false.mp hm d hmem hd

theorem Items.exists_infix {m s : Text} {parts : List Text} (h : Items s parts) (hne : m ≠ [])
    (hm : m.any isPunctuation = false) (hin : m <:+: s) : ∃ t ∈ parts, m <:+: t := by
  have outside : ∀ {a}, Spaces a → ∀ c ∈ a, c ∉ m :=
    fun ha c hc => not_mem_of_isPunctuation hm (by simp [isPunctuation, ha c hc])
  induction h using Items.induction with
  | @last a t b ha ht hb =>
      have hleft := Text.infix_of_infix_append_run hne (outside hb) hin
      exact ⟨t, by simp, Text.infix_of_infix_run_append hne (outside ha) hleft⟩
  | @cons a t b u parts ha ht hb hu ih =>
      rcases Text.infix_append_cons (not_mem_of_isPunctuation hm (by decide)) hin with hin | hin
      · have hleft := Text.infix_of_infix_append_run hne (outside hb) hin
        exact ⟨t, by simp, Text.infix_of_infix_run_append hne (outside ha) hleft⟩
      · obtain ⟨v, hv, hmark⟩ := ih hin
        exact ⟨v, List.mem_cons_of_mem t hv, hmark⟩

theorem Arguments.exists_infix {m s : Text} {parts : List Text} (h : Arguments s parts)
    (hne : m ≠ []) (hm : m.any isPunctuation = false) (hin : m <:+: s) :
    ∃ t ∈ parts, m <:+: t := by
  have parenthesis : ∀ c ∈ ['('], c ∉ m := by
    simpa using not_mem_of_isPunctuation hm (by decide)
  have closing : ∀ c ∈ [')'], c ∉ m := by
    simpa using not_mem_of_isPunctuation hm (by decide)
  cases h with
  | none =>
      have hclose : m <:+: [] ++ [')'] := Text.infix_of_infix_run_append hne parenthesis hin
      have hnil := Text.infix_of_infix_append_run hne closing hclose
      exact absurd (List.infix_nil.mp hnil) hne
  | @some t _ hs =>
      have hclose : m <:+: t ++ [')'] := Text.infix_of_infix_run_append hne parenthesis hin
      exact hs.exists_infix hne hm (Text.infix_of_infix_append_run hne closing hclose)

theorem IsAtom.infix_iff {m s n : Text} {parts : List Text} (h : IsAtom s n parts)
    (hne : m ≠ []) (hm : m.any isPunctuation = false) :
    m <:+: s ↔ m <:+: n ∨ ∃ t ∈ parts, m <:+: t := by
  constructor
  · intro hin
    cases h with
    | bare _ => exact .inl hin
    | applied _ ha =>
        obtain ⟨r, rfl⟩ := ha.head
        rcases Text.infix_append_cons (not_mem_of_isPunctuation hm (by decide)) hin with hin | hin
        · exact .inl hin
        · exact .inr (ha.exists_infix hne hm (List.infix_cons hin))
  · rintro (hin | ⟨t, ht, hin⟩)
    · exact hin.trans h.name_prefix.isInfix
    · exact hin.trans (h.parts t ht).2

/-- An atom neither starts nor ends with a blank. -/
theorem IsAtom.trim_eq {s n : Text} {parts : List Text} (h : IsAtom s n parts) :
    Text.trim s = s := by
  apply Text.trim_eq_self h.stopsAt_isBlank
  cases h with
  | bare h => exact fun d hd => h.no_blank d (List.mem_of_getLast? hd)
  | applied h ha =>
      intro d hd
      obtain ⟨u, rfl⟩ := ha.head
      have hd' : d ∈ ('(' :: u).getLast? := by simpa [List.getLast?_append] using hd
      rw [ha.last d hd']
      decide

/-- What is written for an atom is derived exactly if its name and its arguments are. -/
theorem isAtom_application {n : Text} {parts : List Text} :
    IsAtom (Atom.application n parts) n parts ↔ Name n ∧ ∀ t ∈ parts, Term t := by
  constructor
  · exact fun h => ⟨h.name, fun t ht => (h.parts t ht).1⟩
  · rintro ⟨hn, hp⟩
    cases parts with
    | nil => exact .bare hn
    | cons t parts => exact .applied hn (.some (items_join (by simp) hp))

end Grammar
end Horizon
