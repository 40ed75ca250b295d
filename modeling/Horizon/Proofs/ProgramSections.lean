import Horizon.Program.Compilation
import Horizon.Proofs.FixedForms
import Horizon.Proofs.RuleSteps
import Horizon.Proofs.TextCuts

/-!
The text of a program, rule by rule. Every rule goes to one of two sections, and the order is kept
inside a section, so neither the order between the sections nor the rules without text can be told
from the program. Every other rule is one statement. It is one line too if no name and no argument
has a line feed in it.
-/

namespace Horizon

namespace Atom

/-- No line feed stands in the name or in an argument. -/
def Unbroken (a : Atom) : Prop := '\n' ∉ a.name ∧ ∀ t ∈ a.arguments, '\n' ∉ t

theorem newline_not_mem_application {n : Text} {parts : List Text} (hn : '\n' ∉ n)
    (hp : ∀ t ∈ parts, '\n' ∉ t) : '\n' ∉ application n parts := by
  unfold application
  split
  · exact hn
  · intro h
    simp only [List.mem_append, List.mem_cons, List.not_mem_nil, or_false] at h
    rcases h with h | h | h | h
    · exact hn h
    · contradiction
    · rcases Text.mem_join h with h | ⟨t, ht, h⟩
      · simp at h
      · exact hp t ht h
    · contradiction

end Atom

theorem Numeral.newline_not_mem_write (n : Nat) : '\n' ∉ Numeral.write n := by
  intro h
  have solid := (Numeral.digits_write n).solid.no_blank '\n' h
  contradiction

namespace Fluent

variable {f : Fluent}

theorem newline_not_mem_renderAt {step : Text} (h : f.atom.Unbroken) (hstep : '\n' ∉ step) :
    '\n' ∉ f.renderAt step := by
  refine Atom.newline_not_mem_application h.1 ?_
  intro t ht
  rcases List.mem_append.mp ht with ht | ht
  · exact h.2 t ht
  · rwa [List.mem_singleton.mp ht]

theorem newline_not_mem_render (h : f.atom.Unbroken) : '\n' ∉ f.render := by
  unfold render
  split
  · exact newline_not_mem_renderAt h (Numeral.newline_not_mem_write _)
  · exact Atom.newline_not_mem_application h.1 h.2

end Fluent

namespace Rule

variable {r : Rule} {rules : List Rule} {var : Text}

def Unbroken (r : Rule) : Prop := ∀ f ∈ r.head ++ r.body, f.atom.Unbroken

theorem newline_not_mem_separated {sep : String} (hsep : '\n' ∉ sep.toList)
    {render : Fluent → Text} {fs : List Fluent} (h : ∀ f ∈ fs, '\n' ∉ render f) :
    '\n' ∉ separated sep render fs := by
  intro hmem
  rcases Text.mem_join hmem with hmem | ⟨t, ht, hmem⟩
  · exact hsep hmem
  · obtain ⟨f, hf, rfl⟩ := List.mem_map.mp ht
    exact h f hf hmem

theorem newline_not_mem_bar : '\n' ∉ " | ".toList := by decide

theorem newline_not_mem_comma : '\n' ∉ ", ".toList := by decide

theorem cumulative_of_isEmpty (h : r.isEmpty = true) : r.cumulative var = [] := by
  simp [cumulative, h]

/-- A form in which empty rules have no text and every other rule has a statement, which is one line
if the rule and what else goes into the form have no line feed. -/
structure Stated (unbroken : Prop) (form : Rule → Text) : Prop where
  of_isEmpty : ∀ r, r.isEmpty = true → form r = []
  ends : ∀ r, r.isEmpty = false →
    ∃ front, form r = front ++ stop ∧ (unbroken → r.Unbroken → '\n' ∉ front)

theorem stated_fixed (n : Step) : Stated True (fixed (some n)) := by
  refine ⟨fun _ => fixed_of_isEmpty, ?_⟩
  intro r h
  refine ⟨separated " | " (Fluent.renderAt · (Numeral.write n.toNat)) r.head ++
    (if r.body.isEmpty then []
     else ":- ".toList ++ separated ", " (Fluent.renderAt · (Numeral.write n.toNat)) r.body),
    by simp [fixed, h], ?_⟩
  intro _ hr
  have fluents : ∀ f ∈ r.head ++ r.body, '\n' ∉ f.renderAt (Numeral.write n.toNat) :=
    fun f hf => Fluent.newline_not_mem_renderAt (hr f hf) (Numeral.newline_not_mem_write _)
  rw [List.forall_mem_append] at fluents
  have head := newline_not_mem_separated newline_not_mem_bar fluents.1
  have body := newline_not_mem_separated newline_not_mem_comma fluents.2
  split <;> simp [head, body]

theorem stated_cumulative (var : Text) : Stated ('\n' ∉ var) (cumulative var) := by
  refine ⟨fun _ => cumulative_of_isEmpty, ?_⟩
  intro r h
  refine ⟨separated " | " (Fluent.renderAt · var) r.head ++ ":- ".toList ++
    separated ", " Fluent.render r.body ++
    (if r.head.isEmpty then []
     else (if r.body.isEmpty then [] else ", ".toList) ++ r.guard var),
    by simp [cumulative, h], ?_⟩
  intro hvar hr
  rw [Unbroken, List.forall_mem_append] at hr
  have head := newline_not_mem_separated newline_not_mem_bar
    fun f hf => Fluent.newline_not_mem_renderAt (hr.1 f hf) hvar
  have body := newline_not_mem_separated newline_not_mem_comma
    fun f hf => Fluent.newline_not_mem_render (hr.2 f hf)
  have number := Numeral.newline_not_mem_write r.guardStep.toNat
  split
  · simp [head, body]
  · split <;> simp [head, body, guard, hvar, number]

/-- One text for each rule that is not empty. -/
def statements (form : Rule → Text) (rules : List Rule) : List Text := (written rules).map form

variable {unbroken : Prop} {form : Rule → Text}

theorem Stated.flatMap_eq (h : Stated unbroken form) (rules : List Rule) :
    rules.flatMap form = (statements form rules).flatten := by
  rw [← flatMap_written h.of_isEmpty, List.flatMap_def, statements]

theorem Stated.exists_front (h : Stated unbroken form) :
    ∀ s ∈ statements form rules, ∃ front, s = front ++ stop := by
  intro s hs
  obtain ⟨r, hr, rfl⟩ := List.mem_map.mp hs
  obtain ⟨front, hfront, -⟩ := h.ends r (by simpa using (List.mem_filter.mp hr).2)
  exact ⟨front, hfront⟩

/-- Every statement is a line of its own. -/
theorem Stated.lines_append (h : Stated unbroken form) (hform : unbroken)
    (hrules : ∀ r ∈ rules, r.Unbroken) (rest : Text) :
    Text.lines (rules.flatMap form ++ rest) =
      (statements form rules).map List.dropLast ++ Text.lines rest := by
  rw [← flatMap_written h.of_isEmpty]
  have line : ∀ r ∈ written rules,
      form r = (form r).dropLast ++ ['\n'] ∧ '\n' ∉ (form r).dropLast := by
    intro r hr
    obtain ⟨hmem, hne⟩ := List.mem_filter.mp hr
    obtain ⟨front, hfront, hline⟩ := h.ends r (by simpa using hne)
    have hdrop : (form r).dropLast = front ++ ['.'] := by
      rw [hfront, stop, List.dropLast_append_of_ne_nil (by simp)]
      rfl
    rw [hdrop, hfront]
    exact ⟨by simp [stop], by simp [hline hform (hrules r hmem)]⟩
  have whole : (written rules).flatMap form =
      Text.unlines ((statements form rules).map List.dropLast) := by
    rw [Text.unlines, statements, List.flatMap_map, List.flatMap_map, List.flatMap_def,
      List.flatMap_def]
    exact congrArg List.flatten (List.map_congr_left fun r hr => (line r hr).1)
  rw [whole, Text.lines_unlines_append]
  intro l hl
  obtain ⟨s, hs, rfl⟩ := List.mem_map.mp hl
  obtain ⟨r, hr, rfl⟩ := List.mem_map.mp hs
  exact (line r hr).2

/-- The head says something, and all of it about the initial state. -/
def Anchored (r : Rule) : Prop := r.head ≠ [] ∧ ∀ f ∈ r.head, f.step = some 0

instance : DecidablePred Anchored := fun r =>
  inferInstanceAs (Decidable (r.head ≠ [] ∧ ∀ f ∈ r.head, f.step = some 0))

theorem isInitial_eq_decide (r : Rule) : r.isInitial = decide r.Anchored := by
  rw [Bool.eq_iff_iff, isInitial_iff, decide_eq_true_iff, Anchored]

end Rule

namespace Program

open Rule (Anchored statements written)

theorem ofRules_eq_filter (rules : List Rule) :
    ofRules rules = ⟨rules.filter fun r => Anchored r, rules.filter fun r => ¬ Anchored r⟩ := by
  simp only [ofRules, List.partition_eq_filter_filter, decide_not]
  congr 1 <;> refine List.filter_congr fun r _ => ?_
  · exact Rule.isInitial_eq_decide r
  · exact congrArg (!·) (Rule.isInitial_eq_decide r)

def sectionsText (var : Text) (base later : List Rule) : Text :=
  "#program base.\n".toList ++ base.flatMap (Rule.fixed (some 0)) ++ "\n".toList ++
    "#program step(".toList ++ var ++ ").\n".toList ++ later.flatMap (Rule.cumulative var) ++
    "\n".toList

theorem text_eq_sectionsText (rules : List Rule) (var : Text) :
    (Compilation.program rules).text var =
      sectionsText var (rules.filter fun r => Anchored r) (rules.filter fun r => ¬ Anchored r) := by
  change (ofRules rules).render var = _
  rw [ofRules_eq_filter]
  unfold sectionsText render baseHeader header Rule.fixedAll Rule.cumulativeAll
  simp

/-- Every line of the text is a header, a statement or empty. -/
theorem lines_sectionsText {var : Text} {base later : List Rule} (hbase : ∀ r ∈ base, r.Unbroken)
    (hlater : ∀ r ∈ later, r.Unbroken) (hvar : '\n' ∉ var) :
    Text.lines (sectionsText var base later) =
      "#program base.".toList :: ((statements (Rule.fixed (some 0)) base).map List.dropLast ++
        [] :: ("#program step(".toList ++ var ++ ").".toList) ::
          ((statements (Rule.cumulative var) later).map List.dropLast ++ [[]])) := by
  have apart : sectionsText var base later = "#program base.".toList ++ '\n' ::
      (base.flatMap (Rule.fixed (some 0)) ++ ([] ++ '\n' ::
        (("#program step(".toList ++ var ++ ").".toList) ++ '\n' ::
          (later.flatMap (Rule.cumulative var) ++ ['\n'])))) := by
    unfold sectionsText
    simp
  have hheader : '\n' ∉ "#program step(".toList ++ var ++ ").".toList := by simp [hvar]
  rw [apart, Text.lines_append_cons (by decide), (Rule.stated_fixed 0).lines_append trivial hbase,
    Text.lines_append_cons (by simp), Text.lines_append_cons hheader,
    (Rule.stated_cumulative var).lines_append hvar hlater]
  rfl

/-- The rules with a head at the initial state and the other ones make up the two sections, each in
the given order, and no rule is lost. The text of a section is one statement for each of its rules
that is not empty. Rules that are the same in each of the sections, up to empty ones in the second,
make the same program. -/
theorem text_keeps_rules (rules : List Rule) (var : Text) :
    let base := rules.filter fun r => Anchored r
    let later := rules.filter fun r => ¬ Anchored r
    let first := statements (Rule.fixed (some 0)) base
    let second := statements (Rule.cumulative var) later
    ofRules rules = ⟨base, later⟩ ∧ (base ++ later).Perm rules ∧
    (Compilation.program rules).text var = sectionsText var base later ∧
    base.flatMap (Rule.fixed (some 0)) = first.flatten ∧
    later.flatMap (Rule.cumulative var) = second.flatten ∧
    (first ++ second).length = (written rules).length ∧
    (∀ s ∈ first ++ second, ∃ front, s = front ++ ".\n".toList) ∧
    (∀ others : List Rule, (others.filter fun r => Anchored r) = base →
      written (others.filter fun r => ¬ Anchored r) = written later →
      (Compilation.program others).text var = (Compilation.program rules).text var) ∧
    ((∀ r ∈ rules, r.Unbroken) → '\n' ∉ var →
      Text.lines ((Compilation.program rules).text var) =
        "#program base.".toList :: (first.map List.dropLast ++
          [] :: ("#program step(".toList ++ var ++ ").".toList) ::
            (second.map List.dropLast ++ [[]]))) := by
  intro base later first second
  have hperm : (base ++ later).Perm rules := by
    simpa [base, later] using List.filter_append_perm (fun r => decide (Anchored r)) rules
  have htext := text_eq_sectionsText rules var
  have fixed := Rule.stated_fixed 0
  have cumulative := Rule.stated_cumulative var
  refine ⟨ofRules_eq_filter rules, hperm, htext, fixed.flatMap_eq base, cumulative.flatMap_eq later,
    ?_, ?_, ?_, ?_⟩
  · have hlength := (hperm.filter fun r => !r.isEmpty).length_eq
    rw [List.filter_append] at hlength
    simpa [first, second, statements, written] using hlength
  · rw [List.forall_mem_append]
    exact ⟨fixed.exists_front, cumulative.exists_front⟩
  · intro others hbase hlater
    have hsecond : (others.filter fun r => ¬ Anchored r).flatMap (Rule.cumulative var) =
        later.flatMap (Rule.cumulative var) := by
      rw [cumulative.flatMap_eq, cumulative.flatMap_eq, statements, statements, hlater]
    rw [htext, text_eq_sectionsText others, hbase]
    unfold sectionsText
    rw [hsecond]
  · intro hrules hvar
    rw [htext]
    exact lines_sectionsText (fun r hr => hrules r (List.mem_of_mem_filter hr))
      (fun r hr => hrules r (List.mem_of_mem_filter hr)) hvar

def moveRules : List Rule :=
  [.constraint [⟨⟨"fire".toList, []⟩, none⟩], .fact ⟨⟨"at".toList, ["a".toList]⟩, some 0⟩, .empty,
    .fact ⟨⟨"at".toList, ["b".toList]⟩, some 1⟩, .fact ⟨⟨"idle".toList, []⟩, some 0⟩]

/-- The rules of each section in the same order, but with other empty rules and places. -/
def moveRulesApart : List Rule :=
  [.fact ⟨⟨"at".toList, ["a".toList]⟩, some 0⟩, .fact ⟨⟨"idle".toList, []⟩, some 0⟩, .empty, .empty,
    .constraint [⟨⟨"fire".toList, []⟩, none⟩], .fact ⟨⟨"at".toList, ["b".toList]⟩, some 1⟩]

theorem text_keeps_moveRules :
    ((moveRulesApart.filter fun r => Anchored r) = moveRules.filter fun r => Anchored r) ∧
    written (moveRulesApart.filter fun r => ¬ Anchored r) =
      written (moveRules.filter fun r => ¬ Anchored r) ∧
    (∀ r ∈ moveRules, r.Unbroken) ∧ '\n' ∉ ['t'] ∧
    (Compilation.program moveRulesApart).text ['t'] = (Compilation.program moveRules).text ['t'] ∧
    Text.lines ((Compilation.program moveRules).text ['t']) =
      ["#program base.".toList, "at(a,0).".toList, "idle(0).".toList, [],
        "#program step(t).".toList, ":- fire.".toList, "at(b,t):- t=1.".toList, []] := by
  have hbase : (moveRulesApart.filter fun r => Anchored r) =
      moveRules.filter fun r => Anchored r := by decide
  have hlater : written (moveRulesApart.filter fun r => ¬ Anchored r) =
      written (moveRules.filter fun r => ¬ Anchored r) := by decide
  have unbroken : ∀ r ∈ moveRules, r.Unbroken := by
    simp [moveRules, Rule.Unbroken, Rule.constraint, Rule.fact, Rule.empty, Atom.Unbroken]
  obtain ⟨-, -, -, -, -, -, -, same, lines⟩ := text_keeps_rules moveRules ['t']
  exact ⟨hbase, hlater, unbroken, by decide, same moveRulesApart hbase hlater,
    lines unbroken (by decide)⟩

end Program
end Horizon
