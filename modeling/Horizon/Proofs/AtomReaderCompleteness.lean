import Horizon.Proofs.AtomReaderSoundness

/-!
The other direction: a piece that the grammar derives is taken whole, whatever follows
it, as long as what follows cannot go on with it. The order of the choices does no harm
because the first character of a term settles which of them can succeed.
-/

namespace Horizon
namespace Reader

open Grammar

/-- What may follow a term: nothing that goes on with a name, and no parenthesis that
could start an argument list. -/
def goesOn (c : Char) : Bool := isNameChar c || c == '('

theorem stopsAt_isNameChar {r : Text} (h : Text.StopsAt goesOn r) :
    Text.StopsAt isNameChar r := by
  intro c hc
  have hg := h c hc
  simp only [goesOn, Bool.or_eq_false_iff] at hg
  exact hg.1

theorem goesOn_of_isBlank {c : Char} (h : Text.isBlank c = true) : goesOn c = false := by
  simp only [goesOn, Bool.or_eq_false_iff, beq_eq_false_iff_ne]
  refine ⟨?_, ?_⟩
  · cases hc : isNameChar c with
    | false => rfl
    | true => rw [isBlank_of_isNameChar hc] at h; contradiction
  · rintro rfl
    contradiction

theorem stopsAt_isDigit {r : Text} (h : Text.StopsAt isNameChar r) :
    Text.StopsAt Char.isDigit r := by
  intro c hc
  cases hd : c.isDigit with
  | false => rfl
  | true => exact absurd (isNameChar_of_isDigit hd) (by simp [h c hc])

theorem identifier_append {s r : Text} (h : Identifier s) (hr : Text.StopsAt isNameChar r) :
    identifier (s ++ r) = some (s, r) := by
  cases h with
  | mk hc hs =>
      rw [List.cons_append, identifier, if_pos hc, Text.takeWhile_run hs hr,
        Text.dropWhile_run hs hr]

theorem name_cons {c : Char} (h : c ≠ '-') (s : Text) :
    name (c :: s) = identifier (c :: s) := by
  unfold name
  split
  · next heq => exact absurd (List.cons.inj heq).1 h
  · rfl

theorem name_append {s r : Text} (h : Name s) (hr : Text.StopsAt isNameChar r) :
    name (s ++ r) = some (s, r) := by
  cases h with
  | plain h =>
      have hread := identifier_append h hr
      obtain ⟨c, u, rfl, hc⟩ := h.head
      have hminus : c ≠ '-' := by rintro rfl; contradiction
      rw [List.cons_append] at hread ⊢
      rw [name_cons hminus, hread]
  | negated h => simp [name, identifier_append h hr]

theorem digits_append {s r : Text} (h : Digits s) (hr : Text.StopsAt Char.isDigit r) :
    digits (s ++ r) = some (s, r) := by
  cases h with
  | mk hne hs =>
      obtain ⟨c, u, rfl⟩ := List.exists_cons_of_ne_nil hne
      rw [digits, Text.takeWhile_run hs hr, Text.dropWhile_run hs hr]

theorem integer_cons {c : Char} (h : c ≠ '-') (s : Text) :
    integer (c :: s) = digits (c :: s) := by
  unfold integer
  split
  · next heq => exact absurd (List.cons.inj heq).1 h
  · rfl

theorem integer_append {s r : Text} (h : Integer s) (hr : Text.StopsAt Char.isDigit r) :
    integer (s ++ r) = some (s, r) := by
  cases h with
  | plain h =>
      have hread := digits_append h hr
      cases h with
      | mk hne hs =>
          obtain ⟨c, u, rfl⟩ := List.exists_cons_of_ne_nil hne
          have hminus : c ≠ '-' := by
            rintro rfl
            exact absurd (hs '-' List.mem_cons_self) (by decide)
          rw [List.cons_append] at hread ⊢
          rw [integer_cons hminus, hread]
  | negative h => simp [integer, digits_append h hr]

/-- The closing quote ends a string whatever comes after it. -/
theorem quotedTail_append {s : Text} (h : QuotedTail s) (r : Text) :
    quotedTail (s ++ r) = some (s, r) := by
  induction h with
  | close => rfl
  | char escape quote _ ih => simp [quotedTail_plain escape quote, ih]
  | escape hc _ ih => simp [quotedTail, hc, ih]

theorem quoted_append {s : Text} (h : Quoted s) (r : Text) :
    quoted (s ++ r) = some (s, r) := by
  cases h with
  | mk h => simp [quoted, quotedTail_append h]

theorem constant_append (word r : Text) : constant word (word ++ r) = some (word, r) := by
  have hp : word.isPrefixOf (word ++ r) = true :=
    List.isPrefixOf_iff_prefix.mpr (List.prefix_append word r)
  rw [constant, if_pos hp, List.drop_left]

/-! Lists, over any reader that takes the terms of the list whole. -/

/-- A reader takes the piece whole before anything that cannot go on with it. -/
def TakesWhole (read : Text → Option (Text × Text)) (t : Text) : Prop :=
  ∀ r, Text.StopsAt goesOn r → read (t ++ r) = some (t, r)

section Lists

variable {read : Text → Option (Text × Text)}

theorem item_append {a t b r : Text} (ha : Spaces a) (ht : Term t) (hb : Spaces b)
    (whole : TakesWhole read t) (space : Text.StopsAt isSpace r) (stop : Text.StopsAt goesOn r) :
    item read (a ++ t ++ b ++ r) = some (a ++ t ++ b, t, r) := by
  have first : Text.StopsAt isSpace (t ++ (b ++ r)) := by
    obtain ⟨c, u, rfl, hc⟩ := ht.head
    simpa using isSpace_of_isTermStart hc
  have after : Text.StopsAt goesOn (b ++ r) := by
    cases b with
    | nil => exact stop
    | cons c b =>
        have hc : isSpace c = true := hb c List.mem_cons_self
        simp only [List.cons_append, Text.stopsAt_cons]
        simp only [isSpace, Bool.or_eq_true, beq_iff_eq] at hc
        rcases hc with ((rfl | rfl) | rfl) | rfl <;> decide
  have taken : (a ++ (t ++ (b ++ r))).takeWhile isSpace = a := Text.takeWhile_run ha first
  have left : (a ++ (t ++ (b ++ r))).dropWhile isSpace = t ++ (b ++ r) :=
    Text.dropWhile_run ha first
  simp only [item, List.append_assoc, taken, left, whole (b ++ r) after, Option.map_some,
    Text.takeWhile_run hb space, Text.dropWhile_run hb space]

/-- A list that a parenthesis closes starts with an item that is taken whole, and what
follows it in the list is left. -/
theorem item_of_items {u : Text} {ts : List Text} (h : Items u ts)
    (whole : ∀ t ∈ ts, TakesWhole read t) (r : Text) :
    ∃ v t w more, u = v ++ w ∧ ts = t :: more ∧ MoreItems w more ∧
      item read (u ++ ')' :: r) = some (v, t, w ++ ')' :: r) := by
  obtain ⟨a, t, b, w, more, rfl, rfl, ha, ht, hb, hw⟩ := h.split
  have follows : ∃ c r', w ++ ')' :: r = c :: r' ∧ (c = ',' ∨ c = ')') := by
    cases hw with
    | none => exact ⟨_, _, rfl, .inr rfl⟩
    | comma _ => exact ⟨_, _, rfl, .inl rfl⟩
  obtain ⟨c, r', hc, hstop⟩ := follows
  have space : Text.StopsAt isSpace (w ++ ')' :: r) := by
    rw [hc]
    rcases hstop with rfl | rfl <;> simp [isSpace]
  have stop : Text.StopsAt goesOn (w ++ ')' :: r) := by
    rw [hc]
    rcases hstop with rfl | rfl <;> simp <;> decide
  refine ⟨a ++ t ++ b, t, w, more, rfl, rfl, hw, ?_⟩
  rw [List.append_assoc (a ++ t ++ b)]
  exact item_append ha ht hb (whole t List.mem_cons_self) space stop

/-- The bound on the further terms is met, since each of them takes a comma at least. -/
theorem moreItems_append {u r : Text} {ts : List Text} (h : MoreItems u ts)
    (whole : ∀ t ∈ ts, TakesWhole read t) {n : Nat} (hn : u.length ≤ n) :
    moreItems read n (u ++ ')' :: r) = (u, ts, ')' :: r) := by
  induction n generalizing u ts with
  | zero =>
      cases h with
      | none => rfl
      | comma _ => contradiction
  | succ n ih =>
      cases h with
      | none => rfl
      | comma hu =>
          obtain ⟨v, t, w, more, rfl, rfl, hw, hitem⟩ := item_of_items hu whole r
          have hlen : w.length ≤ n := by
            simp only [List.length_cons, List.length_append] at hn
            omega
          have hmore := ih hw (fun v hv => whole v (List.mem_cons_of_mem t hv)) hlen
          simp only [List.cons_append, moreItems, hitem, hmore]

theorem items_append {u r : Text} {ts : List Text} (h : Items u ts)
    (whole : ∀ t ∈ ts, TakesWhole read t) :
    items read (u ++ ')' :: r) = (u, ts, ')' :: r) := by
  obtain ⟨v, t, w, more, rfl, rfl, hw, hitem⟩ := item_of_items h whole r
  have hlen : w.length ≤ (w ++ ')' :: r).length := (List.prefix_append w _).length_le
  have hmore := moreItems_append (r := r) hw
    (fun v hv => whole v (List.mem_cons_of_mem t hv)) hlen
  simp only [items, hitem, hmore]

/-- No term starts with the parenthesis that closes a list. -/
theorem close_eq_none (takes : Takes Term read) (r : Text) : read (')' :: r) = none := by
  cases hread : read (')' :: r) with
  | none => rfl
  | some p =>
      obtain ⟨hs, ht⟩ := takes _ _ _ hread
      obtain ⟨c, u, hu, hc⟩ := ht.head
      rw [hu, List.cons_append] at hs
      rw [← (List.cons.inj hs).1] at hc
      contradiction

theorem arguments_append (takes : Takes Term read) {s r : Text} {ts : List Text}
    (h : Arguments s ts) (whole : ∀ t ∈ ts, TakesWhole read t) :
    arguments read (s ++ r) = some (s, ts, r) := by
  cases h with
  | none =>
      have noItem : item read (')' :: r) = none := by
        have noSpace : (')' :: r).dropWhile isSpace = ')' :: r := rfl
        rw [item, noSpace, close_eq_none takes, Option.map_none]
      simp [arguments, items, noItem]
  | some h =>
      simp only [List.cons_append, List.append_assoc, List.nil_append, arguments,
        items_append h whole]

theorem arguments_eq_none {r : Text} (h : Text.StopsAt (· == '(') r) :
    arguments read r = none := by
  cases r with
  | nil => rfl
  | cons c r =>
      have hc : c ≠ '(' := by simpa using h
      unfold arguments
      split
      · next heq => exact absurd (List.cons.inj heq).1 hc
      · rfl

/-- An atom is read with its own name and parts, before anything if it has parts and else
before what cannot go on with it. What was taken for its arguments is what the name leaves
of it. -/
theorem application_append (takes : Takes Term read) {s n r : Text} {ts : List Text}
    (h : IsAtom s n ts) (whole : ∀ t ∈ ts, TakesWhole read t)
    (hr : ts = [] → Text.StopsAt goesOn r) :
    ∃ u, s = n ++ u ∧ application read (s ++ r) = some (n, u, ts, r) := by
  cases h with
  | bare h =>
      have stop : Text.StopsAt goesOn r := hr rfl
      have noList : arguments read r = none := by
        apply arguments_eq_none
        intro c hc
        have hg := stop c hc
        simp only [goesOn, Bool.or_eq_false_iff] at hg
        exact hg.2
      refine ⟨[], by simp, ?_⟩
      rw [application, name_append h (stopsAt_isNameChar stop), Option.map_some]
      simp [noList]
  | @applied _ u _ h ha =>
      have stop : Text.StopsAt isNameChar (u ++ r) := by
        obtain ⟨v, rfl⟩ := ha.head
        simp; decide
      refine ⟨u, rfl, ?_⟩
      rw [application, List.append_assoc, name_append h stop, Option.map_some]
      simp [arguments_append takes ha whole]

end Lists

/-! The choices that fail, by the first character. -/

theorem quoted_eq_none {c : Char} (h : c ≠ '"') (s : Text) : quoted (c :: s) = none := by
  unfold quoted
  split
  · next heq => exact absurd (List.cons.inj heq).1 h
  · rfl

theorem constant_eq_none {c d : Char} (h : c ≠ d) (word s : Text) :
    constant (d :: word) (c :: s) = none := by
  have hp : (d :: word).isPrefixOf (c :: s) = false := by
    simp [List.isPrefixOf, Ne.symm h]
  simp [constant, hp]

theorem digits_eq_none {s : Text} (h : Text.StopsAt Char.isDigit s) : digits s = none := by
  simp [digits, Text.takeWhile_of_stopsAt h]

theorem integer_eq_none {c : Char} (hd : c.isDigit = false) (hm : c ≠ '-') (s : Text) :
    integer (c :: s) = none := by
  rw [integer_cons hm]
  exact digits_eq_none (by simpa using hd)

theorem identifier_stopsAt_isDigit {s : Text} (h : Identifier s) (r : Text) :
    Text.StopsAt Char.isDigit (s ++ r) := by
  obtain ⟨c, u, rfl, hc⟩ := h.head
  simpa using isDigit_of_isNameStart hc

/-- A minus sign starts a number or a name, and what follows it decides which. -/
theorem integer_name_eq_none {s : Text} (h : Name s) (r : Text) : integer (s ++ r) = none := by
  cases h with
  | plain h =>
      obtain ⟨c, u, rfl, hc⟩ := h.head
      have hm : c ≠ '-' := by rintro rfl; contradiction
      exact integer_eq_none (isDigit_of_isNameStart hc) hm (u ++ r)
  | negated h => simp [integer, digits_eq_none (identifier_stopsAt_isDigit h r)]

/-- A name or an application is reached: the choices before it all fail. -/
theorem termWithin_isAtom {n : Nat} {s m r : Text} {ts : List Text} (h : IsAtom s m ts)
    (whole : ∀ t ∈ ts, TakesWhole (termWithin n) t) (hr : Text.StopsAt goesOn r) :
    termWithin (n + 1) (s ++ r) = some (s, r) := by
  obtain ⟨u, hs, hread⟩ := application_append (takes_termWithin n) h whole fun _ => hr
  have noInteger : integer (s ++ r) = none := by
    rw [hs, List.append_assoc]
    exact integer_name_eq_none h.name (u ++ r)
  obtain ⟨c, v, hm, hc⟩ := h.name.head
  have hsr : s ++ r = c :: (v ++ (u ++ r)) := by simp [hs, hm]
  have hquote : c ≠ '"' := by
    rintro rfl
    rcases hc with hc | hc <;> contradiction
  have hhash : c ≠ '#' := by
    rintro rfl
    rcases hc with hc | hc <;> contradiction
  have noQuoted : quoted (s ++ r) = none := by rw [hsr]; exact quoted_eq_none hquote _
  have noConstant : ∀ word, constant ('#' :: word) (s ++ r) = none := by
    intro word
    rw [hsr]
    exact constant_eq_none hhash word _
  have noInfimum : constant infimum (s ++ r) = none := noConstant _
  have noSupremum : constant supremum (s ++ r) = none := noConstant _
  simp [termWithin, noQuoted, noInteger, noInfimum, noSupremum, hread, ← hs]

/-- Whatever the grammar derives as a term is read as that term, at any depth that is
more than its length. -/
theorem termWithin_append {n : Nat} {t : Text} (h : Term t) (hn : t.length < n) :
    TakesWhole (termWithin n) t := by
  induction n generalizing t with
  | zero => contradiction
  | succ n ih =>
      intro r hr
      -- A part is shorter than the list around it, so one level less is enough for it.
      have inner : ∀ {s ts}, Arguments s ts → s.length ≤ t.length →
          ∀ p ∈ ts, TakesWhole (termWithin n) p := by
        intro s ts ha hle p hp
        have hlt := ha.length_lt p hp
        exact ih (ha.parts p hp).1 (by omega)
      cases h with
      | quoted h => simp [termWithin, quoted_append h r]
      | integer h =>
          have hread := integer_append h (stopsAt_isDigit (stopsAt_isNameChar hr))
          obtain ⟨c, u, rfl, hc⟩ := h.head
          have hquote : c ≠ '"' := by
            rintro rfl
            rcases hc with hc | hc <;> contradiction
          have noQuoted : quoted (c :: u ++ r) = none := quoted_eq_none hquote (u ++ r)
          rw [termWithin, hread, noQuoted, Option.none_or, Option.some_or]
      | infimum =>
          rw [termWithin, constant_append]
          rfl
      | supremum =>
          have noInfimum : constant infimum (supremum ++ r) = none := rfl
          rw [termWithin, noInfimum, constant_append]
          rfl
      | name h => exact termWithin_isAtom (.bare h) (by simp) hr
      | compound h ha =>
          exact termWithin_isAtom (.applied h ha) (inner ha (by simp)) hr
      | tuple ha =>
          have hread := arguments_append (r := r) (takes_termWithin n) ha
            (inner ha (Nat.le_refl _))
          obtain ⟨u, rfl⟩ := ha.head
          rw [termWithin, hread]
          rfl

end Reader
end Horizon
