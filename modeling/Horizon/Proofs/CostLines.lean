import Horizon.Proofs.OutputTruncation

/-!
Lines that show a cost. Where no answer is awaited, a line that is no status and has none of the
marks that count before it gives a cost exactly if a signed 64-bit number stands right after the
first mark of a cost on it. Whatever comes before the mark or after the digits does not matter,
and a number that does not fit gives no event.
-/

namespace Horizon
namespace Event

/-- The number that stands right after the first mark of a cost on a line. -/
def ShowsNumber (l : Text) (n : Int) : Prop :=
  ∃ before rest, Text.FirstMark costMark l before rest ∧ Numeral.Leading rest n

theorem showsNumber_iff {l before rest : Text} (h : Text.FirstMark costMark l before rest)
    (n : Int) : ShowsNumber l n ↔ Numeral.Leading rest n := by
  constructor
  · rintro ⟨before', rest', h', hn⟩
    have found := (Text.after?_eq_some_iff costMark l rest).mpr ⟨before, h⟩
    rw [(Text.after?_eq_some_iff costMark l rest').mpr ⟨before', h'⟩] at found
    cases found
    exact hn
  · exact fun hn => ⟨before, rest, h, hn⟩

theorem cost?_eq_some_iff (l : Text) (c : Int) :
    cost? l = some c ↔ ShowsNumber l c ∧ Numeral.Signed64 c := by
  simp only [cost?, Option.bind_eq_some_iff, Text.after?_eq_some_iff,
    Numeral.leading64?_eq_some_iff, ShowsNumber]
  constructor
  · rintro ⟨rest, ⟨before, h⟩, hn, range⟩
    exact ⟨⟨before, rest, h, hn⟩, range⟩
  · rintro ⟨⟨before, rest, h, hn⟩, range⟩
    exact ⟨rest, ⟨before, h⟩, hn, range⟩

/-- A line that is no status and has no mark that counts before the mark of a cost. -/
structure Ordinary (l : Text) : Prop where
  ne_unsatisfiable : l ≠ unsatisfiableMark
  ne_unknown : l ≠ unknownMark
  uninterrupted : ¬ interruptedMark <:+: l
  unmarked : ¬ answerMark <:+: l

theorem Ordinary.step_eq {l : Text} (h : Ordinary l) :
    step false l = ((cost? l).map .optimization, false) := by
  have uninterrupted := (Text.mentions_eq_false_iff l interruptedMark).mpr h.uninterrupted
  have unmarked := (Text.mentions_eq_false_iff l answerMark).mpr h.unmarked
  rw [step, classify, if_neg h.ne_unsatisfiable, if_neg h.ne_unknown, uninterrupted, unmarked]
  cases cost? l with
  | none => rfl
  | some c => rfl

theorem scan_unlines {s : Text} {ls : List Text} (h : ls ⊆ Text.lines s) :
    scan (Text.unlines ls) = ofLines false (ls.map Text.trimEnd) := by
  rw [scan, Text.lines_unlines fun l hl => Text.newline_not_mem_of_mem_lines (h hl)]

/-- Where no answer is awaited, the cost on a line comes between the events of the lines before it
and those of the lines after it. -/
theorem scan_at_line {s l : Text} {before after : List Text}
    (hs : Text.lines s = before ++ l :: after)
    (outside : awaits false (before.map Text.trimEnd) = false)
    (ordinary : Ordinary (Text.trimEnd l)) :
    scan s = scan (Text.unlines before) ++ ((cost? (Text.trimEnd l)).map .optimization).toList ++
      scan (Text.unlines after) := by
  have hbefore : before ⊆ Text.lines s := by simp [hs]
  have hafter : after ⊆ Text.lines s := by simp [hs]
  have earlier : scan (Text.unlines before) = settled false (before.map Text.trimEnd) := by
    have happend := ofLines_append false (before.map Text.trimEnd) []
    rw [outside, List.append_nil] at happend
    rw [scan_unlines hbefore, happend]
    exact List.append_nil _
  rw [scan, hs, List.map_append, ofLines_append, outside, List.map_cons, ofLines_cons,
    ordinary.step_eq, earlier, scan_unlines hafter, List.append_assoc]

/-- What a line gives that is met where no answer is awaited, if it is no status and has no mark
of an interruption or an answer. It gives a cost exactly if the number after its first mark of a
cost is a signed 64-bit number, and nothing otherwise. So a number that is written after the mark
is read as it is, or ignored if it does not fit, whatever follows its digits. -/
theorem scan_cost_iff {s l : Text} {before after : List Text}
    (hs : Text.lines s = before ++ l :: after)
    (outside : awaits false (before.map Text.trimEnd) = false)
    (ordinary : Ordinary (Text.trimEnd l)) :
    (∀ c, scan s = scan (Text.unlines before) ++ .optimization c :: scan (Text.unlines after) ↔
      ShowsNumber (Text.trimEnd l) c ∧ Numeral.Signed64 c) ∧
    (scan s = scan (Text.unlines before) ++ scan (Text.unlines after) ↔
      ¬ ∃ c, ShowsNumber (Text.trimEnd l) c ∧ Numeral.Signed64 c) ∧
    (∀ start n rest,
      Text.FirstMark costMark (Text.trimEnd l) start (Numeral.writeInt n ++ rest) →
      Text.StopsAt Char.isDigit rest →
      scan s = scan (Text.unlines before) ++
        (if Numeral.Signed64 n then [.optimization n] else []) ++
        scan (Text.unlines after)) := by
  simp only [scan_at_line hs outside ordinary, ← cost?_eq_some_iff]
  refine ⟨?_, ?_, ?_⟩
  · intro c
    cases hc : cost? (Text.trimEnd l) with
    | none => simp
    | some d => simp
  · cases hc : cost? (Text.trimEnd l) with
    | none => simp
    | some d => simp
  · intro start n rest hfirst hstop
    have shown : ShowsNumber (Text.trimEnd l) n :=
      (showsNumber_iff hfirst n).mpr (Numeral.leading_writeInt hstop n)
    split
    · next range =>
        rw [(cost?_eq_some_iff _ n).mpr ⟨shown, range⟩]
        rfl
    · next range =>
        cases hc : cost? (Text.trimEnd l) with
        | none => rfl
        | some c =>
            obtain ⟨hcn, hrange⟩ := (cost?_eq_some_iff _ c).mp hc
            have hn := (showsNumber_iff hfirst c).mp hcn
            rw [hn.unique (Numeral.leading_writeInt hstop n)] at hrange
            exact absurd hrange range

/-- The least cost with leading zeros, below a content line that looks like a cost. -/
theorem scan_cost_iff_least :
    let before := ["Answer: 1".toList, "Optimization: 4".toList]
    let line := "best Optimization: -009223372036854775808 Optimization: 7 \r".toList
    let after := ["UNKNOWN".toList]
    let s := Text.unlines (before ++ line :: after)
    Text.lines s = before ++ line :: after ∧ awaits false (before.map Text.trimEnd) = false ∧
    Ordinary (Text.trimEnd line) ∧
    scan s =
      [.answer "Optimization: 4".toList, .optimization (-9223372036854775808), .unknown] := by
  intro before line after s
  have hs : Text.lines s = before ++ line :: after := rfl
  have outside : awaits false (before.map Text.trimEnd) = false := rfl
  have ordinary : Ordinary (Text.trimEnd line) := by
    refine ⟨by decide, by decide, ?_, ?_⟩
    · rw [← Text.mentions_eq_false_iff]
      decide
    · rw [← Text.mentions_eq_false_iff]
      decide
  have shown := (cost?_eq_some_iff (Text.trimEnd line) (-9223372036854775808)).mp (by decide)
  exact ⟨hs, outside, ordinary, ((scan_cost_iff hs outside ordinary).1 _).mpr shown⟩

example : scan "Optimization: 9223372036854775808 1\nOptimization: -\n".toList = [] := by decide

end Event
end Horizon
