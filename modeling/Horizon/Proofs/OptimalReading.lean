import Horizon.Proofs.OutputReadings

/-!
The reading of the best costed answer. Its events are turned into the list of answers
with their costs, without any state; the search then keeps the first best entry of the
part of this list that it has gone through, and announces an entry exactly when it is
better than everything before it.
-/

namespace Horizon

namespace Event

/-- The events before the engine reports that there is no answer, or gives up. -/
def beforeEnd (es : List Event) : List Event :=
  es.takeWhile fun e => e ≠ .unsatisfiable && e ≠ .unknown

/-- The first cost that is reported before the next answer. -/
def firstCost? : List Event → Option Int
  | [] => none
  | .optimization cost :: _ => some cost
  | .answer _ :: _ => none
  | _ :: es => firstCost? es

end Event

namespace Direction

/-- One cost is strictly better than another. -/
def Better : Direction → Int → Int → Prop
  | .minimize, c, d => c < d
  | .maximize, c, d => d < c

instance : (direction : Direction) → (c d : Int) → Decidable (direction.Better c d)
  | .minimize, c, d => inferInstanceAs (Decidable (c < d))
  | .maximize, c, d => inferInstanceAs (Decidable (d < c))

theorem improves_some_iff (direction : Direction) (c d : Int) :
    direction.improves c (some d) = true ↔ direction.Better c d := by
  cases direction <;> simp [improves, Better]

theorem Better.trans {direction : Direction} {c d e : Int} (h : direction.Better c d)
    (k : direction.Better d e) : direction.Better c e := by
  cases direction <;> simp only [Better] at * <;> omega

theorem Better.of_not {direction : Direction} {c d e : Int} (h : direction.Better c d)
    (k : ¬ direction.Better e d) : direction.Better c e := by
  cases direction <;> simp only [Better] at * <;> omega

end Direction

namespace Reading

/-- An answer with the cost that the events after it report for it. -/
def owed : Option AnswerSet → List Event → List (Int × AnswerSet)
  | none, _ => []
  | some answer, es =>
      match Event.firstCost? es with
      | some cost => [(cost, answer)]
      | none => []

/-- The answers that can be read and have a cost, in order. -/
def costed : List Event → List (Int × AnswerSet)
  | [] => []
  | .answer c :: es => owed (readable? fluents c) es ++ costed es
  | _ :: es => costed es

/-- The entries that are better than everything before them, where `before` comes before
the list itself. -/
def leadersAfter (direction : Direction) (before : List (Int × AnswerSet)) :
    List (Int × AnswerSet) → List (Int × AnswerSet)
  | [] => []
  | p :: ps =>
      if ∀ q ∈ before, direction.Better p.1 q.1 then
        p :: leadersAfter direction (before ++ [p]) ps
      else leadersAfter direction (before ++ [p]) ps

def leaders (direction : Direction) (ps : List (Int × AnswerSet)) : List (Int × AnswerSet) :=
  leadersAfter direction [] ps

/-- The first of the best entries of a list; there is none only if the list is empty. -/
inductive FirstBest (direction : Direction) :
    List (Int × AnswerSet) → Option (Int × AnswerSet) → Prop
  | empty : FirstBest direction [] none
  | entry {earlier later : List (Int × AnswerSet)} {p : Int × AnswerSet} :
      (∀ q ∈ earlier, direction.Better p.1 q.1) → (∀ q ∈ later, ¬ direction.Better q.1 p.1) →
      FirstBest direction (earlier ++ p :: later) (some p)

theorem FirstBest.split {direction : Direction} {ps : List (Int × AnswerSet)}
    {best : Option (Int × AnswerSet)} (h : FirstBest direction ps best) :
    (ps = [] ∧ best = none) ∨ ∃ earlier p later, ps = earlier ++ p :: later ∧ best = some p ∧
      (∀ q ∈ earlier, direction.Better p.1 q.1) ∧
      ∀ q ∈ later, ¬ direction.Better q.1 p.1 := by
  cases h with
  | empty => exact .inl ⟨rfl, rfl⟩
  | entry he hl => exact .inr ⟨_, _, _, rfl, rfl, he, hl⟩

/-- An entry improves on the first best one if and only if it beats all entries. -/
theorem FirstBest.improves_iff {direction : Direction} {ps : List (Int × AnswerSet)}
    {best : Option (Int × AnswerSet)} (h : FirstBest direction ps best) (cost : Int) :
    direction.improves cost (best.map Prod.fst) = true ↔
      ∀ q ∈ ps, direction.Better cost q.1 := by
  cases h with
  | empty => simp [Direction.improves]
  | @entry earlier later p he hl =>
      rw [Option.map_some, Direction.improves_some_iff]
      constructor
      · intro hp q hq
        rcases List.mem_append.mp hq with hq | hq
        · exact hp.trans (he q hq)
        · rcases List.mem_cons.mp hq with rfl | hq
          · exact hp
          · exact hp.of_not (hl q hq)
      · exact fun hall => hall p (by simp)

/-- One more entry takes over if it beats all entries before it, and changes nothing if
it does not. -/
theorem FirstBest.concat {direction : Direction} {ps : List (Int × AnswerSet)}
    {best : Option (Int × AnswerSet)} (h : FirstBest direction ps best) (p : Int × AnswerSet) :
    FirstBest direction (ps ++ [p])
      (if direction.improves p.1 (best.map Prod.fst) then some p else best) := by
  split
  · next hp =>
      have nothing : ∀ q ∈ ([] : List (Int × AnswerSet)), ¬ direction.Better q.1 p.1 := by simp
      exact .entry ((h.improves_iff p.1).mp hp) nothing
  · next hp =>
      cases h with
      | empty => simp [Direction.improves] at hp
      | @entry earlier later b he hl =>
          rw [Option.map_some, Direction.improves_some_iff] at hp
          rw [List.append_assoc, List.cons_append]
          refine .entry he ?_
          intro q hq
          rcases List.mem_append.mp hq with hq | hq
          · exact hl q hq
          · rw [List.mem_singleton] at hq
            rwa [hq]

/-- A record that announces a new best answer. -/
def announces : Record → Bool
  | .traced _ text => "New best cost ".toList.isPrefixOf text
  | .passed _ | .printed _ => false

def announcements (levels : Levels) (ps : List (Int × AnswerSet)) : List Record :=
  if levels.has .parse then ps.map fun p => .traced .parse (newBest p.1 p.2) else []

theorem announces_dropped (level : Level) (e : ReadError) :
    announces (.traced level (dropped e)) = false := rfl

theorem announces_newBest (level : Level) (cost : Int) (answer : AnswerSet) :
    announces (.traced level (newBest cost answer)) = true := by
  unfold newBest
  rw [announces, List.append_assoc, List.append_assoc]
  exact List.isPrefixOf_iff_prefix.mpr (List.prefix_append _ _)

theorem filter_note_dropped (levels : Levels) (e : ReadError) :
    (Traced.note levels .parse (dropped e)).records.filter announces = [] := by
  unfold Traced.note
  split
  · rw [List.filter_cons_of_neg (by simp [announces_dropped]), List.filter_nil]
  · rfl

theorem filter_note_newBest (levels : Levels) (cost : Int) (answer : AnswerSet) :
    (Traced.note levels .parse (newBest cost answer)).records.filter announces =
      announcements levels [(cost, answer)] := by
  unfold Traced.note announcements
  split
  · rw [List.filter_cons_of_pos (announces_newBest .parse cost answer), List.filter_nil]
    rfl
  · rfl

/-- What a search gives that goes through the entries of `rest` when it knows the first
best of those before. -/
structure Searched (direction : Direction) (levels : Levels)
    (before : List (Int × AnswerSet)) (best : Option (Int × AnswerSet))
    (rest : List (Int × AnswerSet)) (out : Traced (Option (Int × AnswerSet))) : Prop where
  firstBest : FirstBest direction (before ++ rest) out.value
  last : out.value = (leadersAfter direction before rest).getLast?.or best
  announced : out.records.filter announces =
    announcements levels (leadersAfter direction before rest)

section Steps

variable {direction : Direction} {levels : Levels} {before rest : List (Int × AnswerSet)}
  {best : Option (Int × AnswerSet)} {out : Traced (Option (Int × AnswerSet))}

theorem Searched.stop (inv : FirstBest direction before best) :
    Searched direction levels before best [] (pure best) where
  firstBest := by simpa using inv
  last := rfl
  announced := by simp [leadersAfter, announcements]

theorem Searched.drop (h : Searched direction levels before best rest out) (e : ReadError) :
    Searched direction levels before best rest
      (Traced.note levels .parse (dropped e) >>= fun _ => out) where
  firstBest := h.firstBest
  last := h.last
  announced := by
    rw [Traced.records_bind, List.filter_append, filter_note_dropped, List.nil_append]
    exact h.announced

/-- An entry that is not better than the best one is passed over. -/
theorem Searched.pass (inv : FirstBest direction before best) (p : Int × AnswerSet)
    (hp : ¬ direction.improves p.1 (best.map Prod.fst) = true)
    (h : Searched direction levels (before ++ [p]) best rest out) :
    Searched direction levels before best (p :: rest) out := by
  have leaders : leadersAfter direction before (p :: rest) =
      leadersAfter direction (before ++ [p]) rest := by
    rw [inv.improves_iff] at hp
    rw [leadersAfter, if_neg hp]
  refine ⟨by simpa using h.firstBest, ?_, ?_⟩
  · rw [leaders]
    exact h.last
  · rw [leaders]
    exact h.announced

/-- An entry that is better than the best one is announced and takes its place. -/
theorem Searched.take (inv : FirstBest direction before best) (p : Int × AnswerSet)
    (hp : direction.improves p.1 (best.map Prod.fst) = true)
    (h : Searched direction levels (before ++ [p]) (some p) rest out) :
    Searched direction levels before best (p :: rest)
      (Traced.note levels .parse (newBest p.1 p.2) >>= fun _ => out) := by
  have leaders : leadersAfter direction before (p :: rest) =
      p :: leadersAfter direction (before ++ [p]) rest := by
    rw [inv.improves_iff] at hp
    rw [leadersAfter, if_pos hp]
  refine ⟨by simpa using h.firstBest, ?_, ?_⟩
  · rw [leaders, Traced.value_bind, h.last, List.getLast?_cons]
    cases (leadersAfter direction (before ++ [p]) rest).getLast? <;> rfl
  · rw [leaders, Traced.records_bind, List.filter_append, filter_note_newBest, h.announced]
    unfold announcements
    split <;> simp

end Steps

/-- A search goes through the entry owed to the current answer and then through the
costed answers, up to the end of the reading. -/
theorem search_spec {direction : Direction} {levels : Levels}
    {before : List (Int × AnswerSet)} {best : Option (Int × AnswerSet)}
    (inv : FirstBest direction before best) (current : Option AnswerSet) (es : List Event) :
    Searched direction levels before best
      (owed current (Event.beforeEnd es) ++ costed (Event.beforeEnd es))
      (search direction levels best current es) := by
  induction es generalizing before best current with
  | nil =>
      cases current <;> exact .stop inv
  | cons e es ih =>
      cases e with
      | unsatisfiable => cases current <;> exact .stop inv
      | unknown => cases current <;> exact .stop inv
      | interrupted =>
          cases current with
          | none => exact ih inv none
          | some answer => exact ih inv (some answer)
      | answer c =>
          -- Nothing is owed any more to the answer before this one.
          have kept : Event.beforeEnd (.answer c :: es) = .answer c :: Event.beforeEnd es := rfl
          have unowed : owed current (.answer c :: Event.beforeEnd es) = [] := by
            cases current <;> rfl
          rw [kept, unowed, List.nil_append, costed]
          cases hc : fluents c with
          | ok answer => simpa [search, readable?, hc] using ih inv (some answer)
          | error e => simpa [search, readable?, hc] using (ih inv none).drop e
      | optimization cost =>
          have kept : Event.beforeEnd (.optimization cost :: es) =
              .optimization cost :: Event.beforeEnd es := rfl
          rw [kept]
          cases current with
          | none => exact ih inv none
          | some answer =>
              -- The cost goes to the current answer, and further costs find none.
              have paid : owed (some answer) (.optimization cost :: Event.beforeEnd es) ++
                  costed (.optimization cost :: Event.beforeEnd es) =
                  (cost, answer) :: costed (Event.beforeEnd es) := rfl
              rw [paid, search]
              have inv' := inv.concat (cost, answer)
              split
              · next hp =>
                  rw [if_pos hp] at inv'
                  exact .take inv (cost, answer) hp (ih inv' none)
              · next hp =>
                  rw [if_neg hp] at inv'
                  exact .pass inv (cost, answer) hp (ih inv' none)

/-- The answer that is given is the first of the best among the costed answers before the
end of the reading, and the empty one if there are none. The announcements are those of
the entries that are better than all before them, and the last of them is the one given. -/
theorem optimal_first_best (direction : Direction) (levels : Levels) (s : Text) :
    let answers := costed (Event.beforeEnd (Event.scan s))
    let out := optimal direction levels s
    (answers = [] ∧ out.value = {} ∨
      ∃ earlier cost answer later, answers = earlier ++ (cost, answer) :: later ∧
        out.value = answer ∧ (∀ q ∈ earlier, direction.Better cost q.1) ∧
        ∀ q ∈ later, ¬ direction.Better q.1 cost) ∧
    out.records.filter announces =
      (if levels.has .parse then
        (leaders direction answers).map fun p => .traced .parse (newBest p.1 p.2)
      else []) ∧
    out.value = ((leaders direction answers).getLast?.map Prod.snd).getD {} := by
  intro answers out
  have h : Searched direction levels [] none answers
      (search direction levels none none (Event.scan s)) := search_spec .empty none (Event.scan s)
  have value : out.value =
      ((search direction levels none none (Event.scan s)).value.map Prod.snd).getD {} := rfl
  refine ⟨?_, ?_, ?_⟩
  · have found : FirstBest direction answers
        (search direction levels none none (Event.scan s)).value := h.firstBest
    rw [value]
    rcases found.split with ⟨hnone, hbest⟩ | ⟨earlier, p, later, hsome, hbest, he, hl⟩
    · exact .inl ⟨hnone, by rw [hbest]; rfl⟩
    · exact .inr ⟨earlier, p.1, p.2, later, hsome, by rw [hbest]; rfl, he, hl⟩
  · have records : out.records =
        (search direction levels none none (Event.scan s)).records := by
      simp [out, optimal]
    rw [records]
    exact h.announced
  · rw [value, h.last, Option.or_none]
    rfl

end Reading
end Horizon
