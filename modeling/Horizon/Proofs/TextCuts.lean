import Horizon.Proofs.TextSpans
import Horizon.Text.Line
import Mathlib.Data.List.DropRight

/-!
Texts that are cut at a character. What stands before the last line feed, or before the last
blank, is settled by the part before the cut; the line or the word after it goes on in the
part that is missing.
-/

namespace Horizon
namespace Text

/-- What is left of a text without its last run is empty, or ends with a character that is
outside the run. -/
theorem rdropWhile_eq_nil_or_concat (p : Char → Bool) (s : Text) :
    s.rdropWhile p = [] ∨ ∃ r c, s.rdropWhile p = r ++ [c] ∧ p c = false := by
  by_cases h : s.rdropWhile p = []
  · exact .inl h
  · have hlast := List.rdropWhile_last_not p s h
    exact .inr ⟨_, _, (List.dropLast_append_getLast h).symm, by simpa using hlast⟩

/-! Lines. -/

/-- The lines of a text that a line feed ends. -/
def ended (s : Text) : Text := s.rdropWhile (· ≠ '\n')

/-- The line that a text begins and does not end. -/
def begun (s : Text) : Text := s.rtakeWhile (· ≠ '\n')

/-- How a text goes on with the line before it. -/
def restOfLine (t : Text) : Text := t.takeWhile (· ≠ '\n')

theorem ended_append_begun (s : Text) : ended s ++ begun s = s :=
  List.rdropWhile_append_rtakeWhile

theorem newline_not_mem_begun (s : Text) : '\n' ∉ begun s := by
  intro h
  have hne := List.mem_rtakeWhile_imp h
  simp at hne

theorem newline_not_mem_restOfLine (t : Text) : '\n' ∉ restOfLine t := by
  intro h
  have hne := of_mem_takeWhile _ h
  simp at hne

/-- The lines that are ended stay as they are, and the one that is begun goes on. -/
theorem lines_append (s t : Text) : lines (s ++ t) = lines (ended s) ++ lines (begun s ++ t) := by
  have hs : s ++ t = ended s ++ (begun s ++ t) := by
    rw [← List.append_assoc, ended_append_begun]
  rw [hs]
  rcases rdropWhile_eq_nil_or_concat (· ≠ '\n') s with h | ⟨r, c, h, hc⟩
  · have hnil : ended s = [] := h
    rw [hnil]
    rfl
  · have hend : ended s = r ++ ['\n'] := by
      have hnewline : c = '\n' := by simpa using hc
      rw [ended, h, hnewline]
    rw [hend, List.append_assoc, List.singleton_append, lines_append_newline]

theorem lines_append_cons {l : Text} (h : '\n' ∉ l) (r : Text) :
    lines (l ++ '\n' :: r) = l :: lines r := by
  induction l with
  | nil => simp [lines]
  | cons c l ih =>
      have hc : c ≠ '\n' := fun hc => h (by simp [hc])
      have hl : '\n' ∉ l := fun hl => h (List.mem_cons_of_mem c hl)
      simp [lines, hc, ih hl]

theorem lines_eq_singleton {l : Text} (hne : l ≠ []) (h : '\n' ∉ l) : lines l = [l] := by
  induction l with
  | nil => contradiction
  | cons c l ih =>
      have hc : c ≠ '\n' := fun hc => h (by simp [hc])
      have hl : '\n' ∉ l := fun hl => h (List.mem_cons_of_mem c hl)
      rw [lines, if_neg hc]
      cases l with
      | nil => rfl
      | cons d l => rw [ih (by simp) hl]

/-- A text goes on with the line before it up to its first line feed, or to its end. -/
theorem restOfLine_cases (t : Text) :
    t = restOfLine t ∨ ∃ r, t = restOfLine t ++ '\n' :: r := by
  have hsplit : restOfLine t ++ t.dropWhile (· ≠ '\n') = t := List.takeWhile_append_dropWhile
  cases hrest : t.dropWhile (· ≠ '\n') with
  | nil =>
      rw [hrest, List.append_nil] at hsplit
      exact .inl hsplit.symm
  | cons c r =>
      have hstop := stopsAt_dropWhile (· ≠ '\n') t
      rw [hrest, stopsAt_cons] at hstop
      have hc : c = '\n' := by simpa using hstop
      rw [hrest, hc] at hsplit
      exact .inr ⟨r, hsplit.symm⟩

/-- A line that is begun goes on up to the next line feed. -/
theorem exists_lines_eq_cons {l : Text} (hne : l ≠ []) (h : '\n' ∉ l) (t : Text) :
    ∃ more, lines (l ++ t) = (l ++ restOfLine t) :: more := by
  have hl : '\n' ∉ l ++ restOfLine t := by
    rw [List.mem_append, not_or]
    exact ⟨h, newline_not_mem_restOfLine t⟩
  cases restOfLine_cases t with
  | inl ht =>
      rw [← ht] at hl ⊢
      exact ⟨[], lines_eq_singleton (by simp [hne]) hl⟩
  | inr ht =>
      obtain ⟨r, hr⟩ := ht
      refine ⟨lines r, ?_⟩
      rw [← lines_append_cons hl, List.append_assoc, ← hr]

/-- The first line of a text is all of it, or ends at a line feed. -/
theorem split_of_lines_eq_cons {s l : Text} {ls : List Text} (h : lines s = l :: ls) :
    '\n' ∉ l ∧ ((s = l ∧ ls = []) ∨ ∃ r, s = l ++ '\n' :: r ∧ lines r = ls) := by
  have hline := newline_not_mem_restOfLine s
  cases restOfLine_cases s with
  | inl hs =>
      have hne : s ≠ [] := by
        intro hnil
        rw [hnil] at h
        cases h
      rw [← hs] at hline
      rw [lines_eq_singleton hne hline] at h
      cases h
      exact ⟨hline, .inl ⟨rfl, rfl⟩⟩
  | inr hs =>
      obtain ⟨r, hr⟩ := hs
      rw [hr, lines_append_cons hline] at h
      cases h
      exact ⟨hline, .inr ⟨r, hr, rfl⟩⟩

/-- What stands before a line feed is no part of the line that is begun. -/
theorem begun_append_newline (s t : Text) : begun (s ++ '\n' :: t) = begun t := by
  have hstop : ('\n' :: s.reverse).takeWhile (· ≠ '\n') = [] := List.takeWhile_cons_of_neg (by simp)
  simp only [begun, List.rtakeWhile, List.reverse_append, List.reverse_cons, List.append_assoc,
    List.singleton_append, List.takeWhile_append]
  split
  · next hall =>
      rw [hstop, List.append_nil, (List.takeWhile_prefix _).eq_of_length hall]
  · rfl

/-- A text of whole lines begins no line that it does not end. -/
theorem begun_eq_nil {s : Text} (h : s = [] ∨ ∃ r, s = r ++ ['\n']) : begun s = [] := by
  rcases h with rfl | ⟨r, rfl⟩
  · rfl
  · rw [begun_append_newline]
    rfl

theorem ended_eq_self {s : Text} (h : begun s = []) : ended s = s := by
  have hsplit := ended_append_begun s
  rwa [h, List.append_nil] at hsplit

/-- Lines that are written out are the first lines of the text. -/
theorem lines_unlines_append {ls : List Text} (h : ∀ l ∈ ls, '\n' ∉ l) (r : Text) :
    lines (unlines ls ++ r) = ls ++ lines r := by
  induction ls with
  | nil => rfl
  | cons l ls ih =>
      have hl : '\n' ∉ l := h l List.mem_cons_self
      have hls : ∀ m ∈ ls, '\n' ∉ m := fun m hm => h m (List.mem_cons_of_mem l hm)
      have hfirst : unlines (l :: ls) ++ r = l ++ '\n' :: (unlines ls ++ r) := by
        simp [unlines]
      rw [hfirst, lines_append_cons hl, ih hls, List.cons_append]

theorem lines_unlines {ls : List Text} (h : ∀ l ∈ ls, '\n' ∉ l) : lines (unlines ls) = ls := by
  have happend := lines_unlines_append h []
  rwa [List.append_nil, lines, List.append_nil] at happend

theorem newline_not_mem_of_mem_lines {s l : Text} (h : l ∈ lines s) : '\n' ∉ l := by
  induction hs : lines s generalizing s with
  | nil => simp [hs] at h
  | cons m ms ih =>
      obtain ⟨hm, hend⟩ := split_of_lines_eq_cons hs
      rw [hs] at h
      rcases List.mem_cons.mp h with rfl | h
      · exact hm
      · rcases hend with ⟨-, rfl⟩ | ⟨r, -, hr⟩
        · contradiction
        · exact ih (by rwa [hr]) hr

/-- A text is split between two of its lines. -/
theorem exists_split_of_lines {s : Text} {before after : List Text} (hne : after ≠ [])
    (h : lines s = before ++ after) :
    ∃ p r, s = p ++ r ∧ begun p = [] ∧ lines p = before ∧ lines r = after := by
  induction before generalizing s with
  | nil => exact ⟨[], s, rfl, rfl, rfl, h⟩
  | cons l before ih =>
      obtain ⟨hl, hend | ⟨t, rfl, ht⟩⟩ := split_of_lines_eq_cons h
      · exact absurd (List.append_eq_nil_iff.mp hend.2).2 hne
      · obtain ⟨p, r, rfl, hbegun, hp, hr⟩ := ih ht
        refine ⟨l ++ '\n' :: p, r, by simp, ?_, ?_, hr⟩
        · rw [begun_append_newline, hbegun]
        · rw [lines_append_cons hl, hp]

/-! Words. -/

def beforeLastWord (s : Text) : Text := s.rdropWhile fun c => !isBlank c

/-- The last word of a text, which is empty if the text ends with a blank. -/
def lastWord (s : Text) : Text := s.rtakeWhile fun c => !isBlank c

theorem solid_lastWord {s : Text} (h : ∃ c ∈ s.getLast?, isBlank c = false) :
    Solid (lastWord s) := by
  obtain ⟨c, hc, hblank⟩ := h
  obtain ⟨r, rfl⟩ := List.getLast?_eq_some_iff.mp hc
  refine ⟨?_, fun d hd => by simpa using List.mem_rtakeWhile_imp hd⟩
  rw [lastWord, List.rtakeWhile_concat_pos _ _ _ (by simpa using hblank)]
  simp

/-- The words before the last one stay as they are, and the last one goes on. -/
theorem words_append (s t : Text) :
    words (s ++ t) = words (beforeLastWord s) ++ words (lastWord s ++ t) := by
  have hsplit : beforeLastWord s ++ lastWord s = s := List.rdropWhile_append_rtakeWhile
  have hs : s ++ t = beforeLastWord s ++ (lastWord s ++ t) := by rw [← List.append_assoc, hsplit]
  rw [hs]
  rcases rdropWhile_eq_nil_or_concat (fun c => !isBlank c) s with h | ⟨r, c, h, hc⟩
  · have hnil : beforeLastWord s = [] := h
    rw [hnil, words_nil]
    rfl
  · have hblank : isBlank c = true := by simpa using hc
    have hend : beforeLastWord s = r ++ [c] := h
    rw [hend, List.append_assoc, List.singleton_append, words_append_blank hblank,
      words_append_blank hblank, words_nil, List.append_nil]

theorem exists_words_eq_cons {w : Text} (hw : Solid w) (t : Text) :
    ∃ more, words (w ++ t) = (w ++ t.takeWhile fun c => !isBlank c) :: more := by
  have hsplit : t.takeWhile (fun c => !isBlank c) ++ t.dropWhile (fun c => !isBlank c) = t :=
    List.takeWhile_append_dropWhile
  have solid : Solid (w ++ t.takeWhile fun c => !isBlank c) := by
    refine ⟨by simp [hw.ne_nil], ?_⟩
    intro c hc
    rcases List.mem_append.mp hc with hc | hc
    · exact hw.no_blank c hc
    · simpa using of_mem_takeWhile c hc
  cases hrest : t.dropWhile fun c => !isBlank c with
  | nil =>
      rw [hrest, List.append_nil] at hsplit
      rw [hsplit] at solid ⊢
      exact ⟨[], solid.words_eq⟩
  | cons c r =>
      have hstop := stopsAt_dropWhile (fun c => !isBlank c) t
      rw [hrest, stopsAt_cons] at hstop
      have hc : isBlank c = true := by simpa using hstop
      rw [hrest] at hsplit
      refine ⟨words r, ?_⟩
      rw [← hsplit, ← List.append_assoc, words_append_blank hc, hsplit, solid.words_eq]
      rfl

/-! Trimming. -/

theorem trimEnd_append_rtakeWhile (s : Text) : trimEnd s ++ s.rtakeWhile isBlank = s :=
  List.rdropWhile_append_rtakeWhile

theorem trimEnd_append_of_blank {b : Text} (hb : ∀ c ∈ b, isBlank c = true) (s : Text) :
    trimEnd (s ++ b) = trimEnd s := by
  have hrev : ∀ c ∈ b.reverse, isBlank c = true := by simpa using hb
  rw [trimEnd, trimEnd, List.reverse_append, List.dropWhile_append_of_pos hrev]

/-- Every text is what is left when it is trimmed, between blanks. -/
theorem exists_blanks_trim (s : Text) :
    ∃ left right, s = left ++ trim s ++ right ∧
      (∀ c ∈ left, isBlank c = true) ∧ ∀ c ∈ right, isBlank c = true := by
  refine ⟨s.takeWhile isBlank, (trimStart s).rtakeWhile isBlank, ?_, of_mem_takeWhile,
    fun c hc => List.mem_rtakeWhile_imp hc⟩
  rw [List.append_assoc, trim, trimEnd_append_rtakeWhile, trimStart,
    List.takeWhile_append_dropWhile]

theorem Solid.trim_append {left w right : Text} (hw : Solid w)
    (hleft : ∀ c ∈ left, isBlank c = true) (hright : ∀ c ∈ right, isBlank c = true) :
    trim (left ++ w ++ right) = w := by
  obtain ⟨c, r, rfl⟩ := List.exists_cons_of_ne_nil hw.ne_nil
  have stop : StopsAt isBlank (c :: r ++ right) := by
    rw [List.cons_append, stopsAt_cons]
    exact hw.no_blank c List.mem_cons_self
  have last : ∀ d ∈ (c :: r).getLast?, isBlank d = false :=
    fun d hd => hw.no_blank d (List.mem_of_getLast? hd)
  rw [trim, trimStart, List.append_assoc, dropWhile_run hleft stop,
    trimEnd_append_of_blank hright, trimEnd_eq_self last]

/-- A mark that does not end with a blank is not lost when the end of a line is trimmed. -/
theorem infix_trimEnd {m s : Text} (hm : ∀ c ∈ m.getLast?, isBlank c = false) (h : m <:+: s) :
    m <:+: trimEnd s := by
  -- What the trimmed run has of the mark would end the mark with a blank.
  have outside : ∀ l, l <:+ m → (∀ c ∈ l, isBlank c = true) → l = [] := by
    intro l hl hblank
    cases hlast : l.getLast? with
    | none => exact List.getLast?_eq_none_iff.mp hlast
    | some c =>
        obtain ⟨k, rfl⟩ := hl
        have hc : c ∈ (k ++ l).getLast? := by simp [List.getLast?_append, hlast]
        have hsolid := hm c hc
        rw [hblank c (List.mem_of_getLast? hlast)] at hsolid
        contradiction
  have blank : ∀ c ∈ s.rtakeWhile isBlank, isBlank c = true :=
    fun c hc => List.mem_rtakeWhile_imp hc
  rw [← trimEnd_append_rtakeWhile s] at h
  rcases List.infix_append_iff.mp h with h | h | ⟨k, l, rfl, hk, hl⟩
  · exact h
  · rw [outside m List.suffix_rfl fun c hc => blank c (h.subset hc)]
    exact List.nil_infix
  · rw [outside l (List.suffix_append k l) fun c hc => blank c (hl.subset hc), List.append_nil]
    exact hk.isInfix

end Text
end Horizon
