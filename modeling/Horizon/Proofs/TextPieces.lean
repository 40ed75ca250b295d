import Horizon.Proofs.TextSpans

/-!
The pieces of a text between its separators. They are told apart by what stands beside them: a
piece has no separator in it, and before and after it there is a separator or nothing. A separator
that is put between two texts keeps the pieces of both.
-/

namespace Horizon
namespace Text

variable {sep : Char} {p s : Text}

theorem pieces_append_cons (sep : Char) (s t : Text) :
    pieces sep (s ++ sep :: t) = pieces sep s ++ pieces sep t :=
  List.splitOn_append_cons_self s t

theorem pieces_eq_singleton (h : sep ∉ p) : pieces sep p = [p] :=
  List.splitOn_eq_singleton h

theorem join_pieces (sep : Char) (s : Text) : join [sep] (pieces sep s) = s :=
  List.intercalate_splitOn sep

theorem not_mem_of_mem_pieces (h : p ∈ pieces sep s) : sep ∉ p := by
  obtain ⟨u, us, hs, -, hin⟩ := splitOnP_pieces (· == sep) s
  rw [pieces, List.splitOn_eq_splitOnP, hs] at h
  intro hsep
  simpa using (hin p h).2 sep hsep

/-- A text stands in another one, with a separator or nothing on either side. -/
def Between (sep : Char) (p s : Text) : Prop :=
  ∃ before after, s = before ++ p ++ after ∧
    (∀ c ∈ before.getLast?, c = sep) ∧ ∀ c ∈ after.head?, c = sep

theorem Between.prepend (h : Between sep p s) (t : Text) : Between sep p (t ++ sep :: s) := by
  obtain ⟨before, after, rfl, hbefore, hafter⟩ := h
  refine ⟨t ++ sep :: before, after, by simp, ?_, hafter⟩
  intro c hc
  cases hlast : before.getLast? with
  | none => simpa [List.getLast?_cons, hlast, eq_comm] using hc
  | some d =>
      have hd : d = c := by simpa [List.getLast?_cons, hlast] using hc
      exact hbefore c (by rw [hlast, hd]; rfl)

theorem between_of_mem_join {ps : List Text} (h : p ∈ ps) : Between sep p (join [sep] ps) := by
  induction ps with
  | nil => contradiction
  | cons q qs ih =>
      cases qs with
      | nil =>
          obtain rfl := List.mem_singleton.mp h
          exact ⟨[], [], by simp, by simp, by simp⟩
      | cons r rs =>
          rw [join_cons_cons, List.singleton_append]
          rcases List.mem_cons.mp h with rfl | h
          · exact ⟨[], sep :: join [sep] (r :: rs), by simp, by simp, by simp⟩
          · exact (ih h).prepend q

theorem Between.mem_pieces (h : Between sep p s) (hp : sep ∉ p) : p ∈ pieces sep s := by
  obtain ⟨before, after, rfl, hbefore, hafter⟩ := h
  -- A separator before the text and one after it each cut the whole in two.
  have first : p ∈ pieces sep (p ++ after) := by
    cases after with
    | nil => simp [pieces_eq_singleton hp]
    | cons c r =>
        obtain rfl : c = sep := hafter c rfl
        simp [pieces_append_cons, pieces_eq_singleton hp]
  rcases List.eq_nil_or_concat before with rfl | ⟨r, c, rfl⟩
  · exact first
  · obtain rfl : c = sep := hbefore c (by simp)
    simp [pieces_append_cons, first]

theorem mem_pieces_iff : p ∈ pieces sep s ↔ sep ∉ p ∧ Between sep p s := by
  constructor
  · intro h
    have between : Between sep p (join [sep] (pieces sep s)) := between_of_mem_join h
    rw [join_pieces] at between
    exact ⟨not_mem_of_mem_pieces h, between⟩
  · rintro ⟨hp, h⟩
    exact h.mem_pieces hp

end Text
end Horizon
