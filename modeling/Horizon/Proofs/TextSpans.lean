import Horizon.Text.Blank

/-!
Spans of text: the longest run of one kind of character before a stop, trimming, words
and their joining, and the occurrence of a mark as an infix. These facts mention neither
atoms nor engine output; the readers and the scanner are both built on them.
-/

namespace Horizon
namespace Text

/-- The text does not go on with a character of the kind. -/
def StopsAt (p : Char → Bool) (r : Text) : Prop := ∀ c ∈ r.head?, p c = false

@[simp] theorem stopsAt_nil (p : Char → Bool) : StopsAt p [] := by simp [StopsAt]

@[simp] theorem stopsAt_cons (p : Char → Bool) (c : Char) (r : Text) :
    StopsAt p (c :: r) ↔ p c = false := by simp [StopsAt]

theorem takeWhile_of_stopsAt {p : Char → Bool} {r : Text} (h : StopsAt p r) :
    r.takeWhile p = [] := by
  cases r with
  | nil => rfl
  | cons c r => exact List.takeWhile_cons_of_neg (by simpa using h)

theorem dropWhile_of_stopsAt {p : Char → Bool} {r : Text} (h : StopsAt p r) :
    r.dropWhile p = r := by
  cases r with
  | nil => rfl
  | cons c r => exact List.dropWhile_cons_of_neg (by simpa using h)

theorem takeWhile_run {p : Char → Bool} {s r : Text} (hs : ∀ c ∈ s, p c = true)
    (hr : StopsAt p r) : (s ++ r).takeWhile p = s := by
  rw [List.takeWhile_append_of_pos hs, takeWhile_of_stopsAt hr, List.append_nil]

theorem dropWhile_run {p : Char → Bool} {s r : Text} (hs : ∀ c ∈ s, p c = true)
    (hr : StopsAt p r) : (s ++ r).dropWhile p = r := by
  rw [List.dropWhile_append_of_pos hs, dropWhile_of_stopsAt hr]

theorem stopsAt_dropWhile (p : Char → Bool) (s : Text) : StopsAt p (s.dropWhile p) := by
  have h := List.head?_dropWhile_not p s
  intro c hc
  rw [Option.mem_def.mp hc] at h
  simpa using h

theorem of_mem_takeWhile {p : Char → Bool} {s : Text} : ∀ c ∈ s.takeWhile p, p c = true := by
  have h := List.all_takeWhile (p := p) (l := s)
  rwa [List.all_eq_true] at h

/-! Trimming. -/

theorem trimEnd_eq_self {s : Text} (h : ∀ c ∈ s.getLast?, isBlank c = false) :
    trimEnd s = s := by
  have stop : StopsAt isBlank s.reverse := by
    intro c hc
    rw [List.head?_reverse] at hc
    exact h c hc
  rw [trimEnd, dropWhile_of_stopsAt stop, List.reverse_reverse]

theorem trimEnd_prefix (s : Text) : trimEnd s <+: s := by
  have h : s.reverse.dropWhile isBlank <:+ s.reverse := List.dropWhile_suffix isBlank
  simpa [trimEnd] using List.reverse_prefix.mpr h

theorem trim_eq_self {s : Text} (first : StopsAt isBlank s)
    (last : ∀ c ∈ s.getLast?, isBlank c = false) : trim s = s := by
  rw [trim, trimStart, dropWhile_of_stopsAt first, trimEnd_eq_self last]

/-! Words. -/

/-- A text that is one word: it is not empty and has no blank in it. -/
structure Solid (w : Text) : Prop where
  ne_nil : w ≠ []
  no_blank : ∀ c ∈ w, isBlank c = false

theorem solid_iff_all (w : Text) :
    Solid w ↔ (!w.isEmpty && w.all fun c => !isBlank c) = true := by
  simp only [Bool.and_eq_true, Bool.not_eq_true', List.all_eq_true, List.isEmpty_eq_false_iff]
  exact ⟨fun h => ⟨h.ne_nil, h.no_blank⟩, fun h => ⟨h.1, h.2⟩⟩

instance (w : Text) : Decidable (Solid w) := decidable_of_iff _ (solid_iff_all w).symm

theorem Solid.trim_eq {w : Text} (h : Solid w) : trim w = w := by
  apply trim_eq_self
  · intro c hc
    exact h.no_blank c (List.mem_of_mem_head? hc)
  · intro c hc
    exact h.no_blank c (List.mem_of_getLast? hc)

theorem Solid.words_eq {w : Text} (h : Solid w) : words w = [w] := by
  have single : w.splitOnP isBlank = [w] := List.splitOnP_eq_singleton h.no_blank
  have full : w.isEmpty = false := by simpa using h.ne_nil
  simp [words, single, full]

theorem Solid.append {w v : Text} (hw : Solid w) (hv : Solid v) : Solid (w ++ v) := by
  refine ⟨by simp [hw.ne_nil], ?_⟩
  intro c hc
  rcases List.mem_append.mp hc with hc | hc
  · exact hw.no_blank c hc
  · exact hv.no_blank c hc

theorem words_nil : words [] = [] := by simp [words]

theorem join_cons_cons (sep w v : Text) (vs : List Text) :
    join sep (w :: v :: vs) = w ++ (sep ++ join sep (v :: vs)) := by
  simp [join, List.intercalate_cons_cons]

@[simp] theorem join_nil (sep : Text) : join sep [] = [] := rfl

@[simp] theorem join_singleton (sep w : Text) : join sep [w] = w := by simp [join]

/-- A separator stands before every text but the first. -/
theorem join_cons (sep : Text) (w : Text) (ws : List Text) :
    join sep (w :: ws) = w ++ ws.flatMap fun v => sep ++ v := by
  induction ws generalizing w with
  | nil => simp
  | cons v vs ih => rw [join_cons_cons, ih, List.flatMap_cons, List.append_assoc]

/-- The last of the joined texts comes after a separator if it is not the only one. -/
theorem join_concat (sep w : Text) (ws : List Text) :
    join sep (ws ++ [w]) = join sep ws ++ (if ws.isEmpty then [] else sep) ++ w := by
  induction ws with
  | nil => simp
  | cons v vs ih =>
      cases vs with
      | nil => simp [join_cons_cons]
      | cons u us =>
          simp only [List.cons_append] at ih
          simp [join_cons_cons, ih]

/-- The words of texts joined by a blank are those of the texts. -/
theorem words_join_eq_flatMap (ts : List Text) : words (join [' '] ts) = ts.flatMap words := by
  induction ts with
  | nil => exact words_nil
  | cons t ts ih =>
      cases ts with
      | nil => simp
      | cons u us =>
          rw [join_cons_cons, List.singleton_append, words_append_blank (by decide), ih]
          rfl

theorem flatMap_words_solid {ws : List Text} (h : ∀ w ∈ ws, Solid w) : ws.flatMap words = ws := by
  induction ws with
  | nil => rfl
  | cons w ws ih =>
      rw [List.flatMap_cons, (h w List.mem_cons_self).words_eq,
        ih fun v hv => h v (List.mem_cons_of_mem w hv), List.singleton_append]

/-- Solid texts joined by a blank are the words of the whole. -/
theorem words_join {ws : List Text} (h : ∀ w ∈ ws, Solid w) : words (join [' '] ws) = ws := by
  rw [words_join_eq_flatMap, flatMap_words_solid h]

/-- Solid texts joined by a space are the pieces of the whole between its spaces. -/
theorem pieces_join {ws : List Text} (hne : ws ≠ []) (h : ∀ w ∈ ws, Solid w) :
    pieces ' ' (join [' '] ws) = ws := by
  apply List.splitOn_intercalate ' ' _ hne
  intro w hw hspace
  have hblank := (h w hw).no_blank ' ' hspace
  contradiction

/-- A text that has a blank in it, but does not start with one, starts with a word. -/
theorem exists_word_of_blank {s : Text} (first : StopsAt isBlank s)
    (h : ∃ c ∈ s, isBlank c = true) :
    ∃ w c r, s = w ++ c :: r ∧ Solid w ∧ isBlank c = true := by
  obtain ⟨c, hfound⟩ := Option.isSome_iff_exists.mp (List.find?_isSome.mpr h)
  obtain ⟨hc, w, r, rfl, hw⟩ := List.find?_eq_some_iff_append.mp hfound
  refine ⟨w, c, r, rfl, ⟨?_, fun d hd => by simpa using hw d hd⟩, hc⟩
  rintro rfl
  rw [List.nil_append, stopsAt_cons, hc] at first
  cases first

/-- The pieces of a split lie inside the text and hold no separator. That the first one
starts the text carries the induction. -/
theorem splitOnP_pieces (p : Char → Bool) (s : Text) :
    ∃ u us, s.splitOnP p = u :: us ∧ u <+: s ∧
      ∀ w ∈ u :: us, w <:+: s ∧ ∀ c ∈ w, p c = false := by
  induction s with
  | nil => exact ⟨[], [], rfl, List.prefix_rfl, by simp⟩
  | cons d s ih =>
      obtain ⟨u, us, hs, hu, hin⟩ := ih
      rw [List.splitOnP_cons_eq_if_modifyHead, hs]
      by_cases hd : p d = true
      · refine ⟨[], u :: us, by simp [hd], List.nil_prefix, ?_⟩
        intro w hw
        rcases List.mem_cons.mp hw with rfl | hw
        · simp
        · exact ⟨List.infix_cons (hin w hw).1, (hin w hw).2⟩
      · have first : d :: u <+: d :: s := List.cons_prefix_cons.mpr ⟨rfl, hu⟩
        refine ⟨d :: u, us, by simp [hd], first, ?_⟩
        intro w hw
        rcases List.mem_cons.mp hw with rfl | hw
        · refine ⟨first.isInfix, ?_⟩
          intro c hc
          rcases List.mem_cons.mp hc with rfl | hc
          · simpa using hd
          · exact (hin u List.mem_cons_self).2 c hc
        · have h := hin w (List.mem_cons_of_mem u hw)
          exact ⟨List.infix_cons h.1, h.2⟩

/-- A word is solid and lies inside the text. -/
theorem mem_words {s w : Text} (h : w ∈ words s) : Solid w ∧ w <:+: s := by
  obtain ⟨hw, full⟩ := List.mem_filter.mp h
  obtain ⟨u, us, hs, -, hin⟩ := splitOnP_pieces isBlank s
  rw [hs] at hw
  exact ⟨⟨by simpa using full, (hin w hw).2⟩, (hin w hw).1⟩

theorem getLast?_join_solid {ws : List Text} (h : ∀ w ∈ ws, Solid w) :
    ∀ c ∈ (join [' '] ws).getLast?, isBlank c = false := by
  induction ws with
  | nil => simp
  | cons w ws ih =>
      have hw : Solid w := h w List.mem_cons_self
      have hws := ih fun v hv => h v (List.mem_cons_of_mem w hv)
      intro c hc
      cases ws with
      | nil =>
          rw [join_singleton] at hc
          exact hw.no_blank c (List.mem_of_getLast? hc)
      | cons v vs =>
          have hv : v ≠ [] := (h v (by simp)).ne_nil
          have full : join [' '] (v :: vs) ≠ [] := by
            cases vs with
            | nil => simpa using hv
            | cons u us => simp [join_cons_cons, hv]
          cases hd : (join [' '] (v :: vs)).getLast? with
          | none => exact absurd (List.getLast?_eq_none_iff.mp hd) full
          | some d =>
              simp only [join_cons_cons, List.singleton_append, List.getLast?_append,
                List.getLast?_cons, hd, Option.getD_some, Option.some_or] at hc
              exact hws c (by rw [hd]; exact hc)

theorem mem_join {c : Char} {sep : Text} {ws : List Text} (h : c ∈ join sep ws) :
    c ∈ sep ∨ ∃ w ∈ ws, c ∈ w := by
  induction ws with
  | nil => simp at h
  | cons w ws ih =>
      cases ws with
      | nil => exact .inr ⟨w, by simp, by simpa using h⟩
      | cons v vs =>
          simp only [join_cons_cons, List.mem_append] at h
          rcases h with h | h | h
          · exact .inr ⟨w, by simp, h⟩
          · exact .inl h
          · rcases ih h with h | ⟨u, hu, hc⟩
            · exact .inl h
            · exact .inr ⟨u, List.mem_cons_of_mem w hu, hc⟩

theorem trimEnd_join_solid {ws : List Text} (h : ∀ w ∈ ws, Solid w) :
    trimEnd (join [' '] ws) = join [' '] ws :=
  trimEnd_eq_self (getLast?_join_solid h)

theorem newline_not_mem_join_solid {ws : List Text} (h : ∀ w ∈ ws, Solid w) :
    '\n' ∉ join [' '] ws := by
  intro hmem
  rcases mem_join hmem with hsep | ⟨w, hw, hc⟩
  · simp at hsep
  · have hblank := (h w hw).no_blank '\n' hc
    contradiction

theorem infix_join_of_mem {sep w : Text} {ws : List Text} (h : w ∈ ws) : w <:+: join sep ws := by
  induction ws with
  | nil => contradiction
  | cons v vs ih =>
      cases vs with
      | nil =>
          obtain rfl := List.mem_singleton.mp h
          exact (join_singleton sep w).symm ▸ List.infix_rfl
      | cons u us =>
          rw [join_cons_cons]
          rcases List.mem_cons.mp h with rfl | h
          · exact List.infix_append_left
          · exact List.infix_append_of_infix_right (List.infix_append_of_infix_right (ih h))

/-! Marks. -/

theorem mentions_iff_infix (s mark : Text) : mentions s mark = true ↔ mark <:+: s := by
  induction s with
  | nil => cases mark <;> simp [mentions, after?]
  | cons c s ih =>
      rw [List.infix_cons_iff, ← ih, ← List.isPrefixOf_iff_prefix]
      by_cases h : mark.isPrefixOf (c :: s) = true <;> simp [mentions, after?, h]

theorem mentions_eq_false_iff (s mark : Text) : mentions s mark = false ↔ ¬ mark <:+: s := by
  rw [← mentions_iff_infix, Bool.not_eq_true]

/-- The first place where the mark stands in a text: what comes before it and after it. -/
structure FirstMark (mark s before after : Text) : Prop where
  split : s = before ++ (mark ++ after)
  first : ∀ b a, s = b ++ (mark ++ a) → before.length ≤ b.length

theorem after?_eq_some_iff (mark s t : Text) :
    after? mark s = some t ↔ ∃ before, FirstMark mark s before t := by
  induction s with
  | nil =>
      rw [after?]
      constructor
      · intro h
        split at h
        · next hmark =>
            cases h
            exact ⟨[], by simpa using hmark, by simp⟩
        · contradiction
      · rintro ⟨before, hsplit, -⟩
        simp_all
  | cons c s ih =>
      rw [after?]
      by_cases hmark : mark <+: c :: s
      · obtain ⟨r, hr⟩ := hmark
        have hdrop : (c :: s).drop mark.length = r := by rw [← hr, List.drop_left]
        rw [if_pos (List.isPrefixOf_iff_prefix.mpr ⟨r, hr⟩), hdrop, Option.some.injEq]
        constructor
        · rintro rfl
          exact ⟨[], hr.symm, by simp⟩
        · rintro ⟨before, hsplit, hfirst⟩
          have hnil : before = [] := by simpa using hfirst [] r hr.symm
          rw [hnil, List.nil_append, ← hr] at hsplit
          exact List.append_cancel_left hsplit
      · rw [if_neg (by rwa [List.isPrefixOf_iff_prefix]), ih]
        constructor
        · rintro ⟨before, rfl, hfirst⟩
          refine ⟨c :: before, rfl, ?_⟩
          intro b a hba
          cases b with
          | nil => exact absurd ⟨a, hba.symm⟩ hmark
          | cons d b =>
              injection hba with _ htail
              exact Nat.succ_le_succ (hfirst b a htail)
        · rintro ⟨before, hsplit, hfirst⟩
          cases before with
          | nil => exact absurd ⟨t, hsplit.symm⟩ hmark
          | cons d before =>
              injection hsplit with hd htail
              refine ⟨before, htail, ?_⟩
              intro b a hba
              exact Nat.le_of_succ_le_succ (hfirst (c :: b) a (by rw [hba]; rfl))

/-- A mark lies on one side of a character that is not in it. -/
theorem infix_append_cons {m s t : Text} {d : Char} (hd : d ∉ m) (h : m <:+: s ++ d :: t) :
    m <:+: s ∨ m <:+: t := by
  have outside : ∀ l : Text, l ⊆ m → l <+: d :: t → l = [] := by
    intro l hl hp
    cases l with
    | nil => rfl
    | cons e l =>
        have he : e = d := (List.cons_prefix_cons.mp hp).1
        exact absurd (hl (by simp [he])) hd
  rcases List.infix_append_iff.mp h with h | h | ⟨l₁, l₂, rfl, h₁, h₂⟩
  · exact .inl h
  · rcases List.infix_cons_iff.mp h with h | h
    · rw [outside m (fun _ hx => hx) h]
      exact .inl List.nil_infix
    · exact .inr h
  · rw [outside l₂ (List.subset_append_right l₁ l₂) h₂, List.append_nil]
    exact .inl h₁.isInfix

/-- A mark that stands before or after a run of characters outside it does not reach into
the run. -/
theorem infix_of_infix_run_append {m a s : Text} (hm : m ≠ []) (ha : ∀ c ∈ a, c ∉ m)
    (h : m <:+: a ++ s) : m <:+: s := by
  induction a with
  | nil => exact h
  | cons c a ih =>
      rcases infix_append_cons (ha c List.mem_cons_self) (s := []) h with h | h
      · exact absurd (List.infix_nil.mp h) hm
      · exact ih (fun d hd => ha d (List.mem_cons_of_mem c hd)) h

theorem infix_of_infix_append_run {m a s : Text} (hm : m ≠ []) (ha : ∀ c ∈ a, c ∉ m)
    (h : m <:+: s ++ a) : m <:+: s := by
  cases a with
  | nil => simpa using h
  | cons c a =>
      rcases infix_append_cons (ha c List.mem_cons_self) h with h | h
      · exact h
      · obtain ⟨d, r, rfl⟩ := List.exists_cons_of_ne_nil hm
        have inside : d ∈ c :: a := List.mem_cons_of_mem c (h.subset List.mem_cons_self)
        exact absurd List.mem_cons_self (ha d inside)

theorem infix_join {m : Text} {d : Char} (hd : d ∉ m) (hm : m ≠ []) {ws : List Text}
    (h : m <:+: join [d] ws) : ∃ w ∈ ws, m <:+: w := by
  induction ws with
  | nil => exact absurd (List.infix_nil.mp h) hm
  | cons w ws ih =>
      cases ws with
      | nil => exact ⟨w, by simp, by simpa using h⟩
      | cons v vs =>
          rw [join_cons_cons, List.singleton_append] at h
          rcases infix_append_cons hd h with h | h
          · exact ⟨w, by simp, h⟩
          · obtain ⟨u, hu, hmu⟩ := ih h
            exact ⟨u, List.mem_cons_of_mem w hu, hmu⟩

theorem infix_join_iff {m : Text} {d : Char} (hd : d ∉ m) (hm : m ≠ []) {ws : List Text} :
    m <:+: join [d] ws ↔ ∃ w ∈ ws, m <:+: w := by
  constructor
  · exact infix_join hd hm
  · rintro ⟨w, hw, h⟩
    exact h.trans (infix_join_of_mem hw)

end Text
end Horizon
