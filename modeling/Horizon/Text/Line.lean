import Horizon.Text.Basic

/-!
Lines. A line ends at a line feed or at the end of the text; nothing after the last
line feed is no line.
-/

namespace Horizon
namespace Text

def lines : Text → List Text
  | [] => []
  | c :: r =>
      if c = '\n' then [] :: lines r
      else
        match lines r with
        | [] => [[c]]
        | l :: ls => (c :: l) :: ls

/-- Every line followed by a line feed. -/
def unlines (ls : List Text) : Text := ls.flatMap fun l => l ++ ['\n']

/-- A line feed ends the line before it and begins none. -/
theorem lines_append_newline (s t : Text) :
    lines (s ++ '\n' :: t) = lines (s ++ ['\n']) ++ lines t := by
  induction s with
  | nil => simp [lines]
  | cons c s ih =>
      by_cases hc : c = '\n'
      · simp [lines, hc, ih]
      · have hne : lines (s ++ ['\n']) ≠ [] := by
          cases s with
          | nil => simp [lines]
          | cons d s =>
              simp only [List.cons_append, lines]
              split
              · simp
              · split <;> simp
        obtain ⟨l, ls, h⟩ := List.exists_cons_of_ne_nil hne
        simp [lines, hc, ih, h]

end Text
end Horizon
