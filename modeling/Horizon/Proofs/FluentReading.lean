import Horizon.Proofs.FluentRendering

/-!
Reading fluents. A text is read as a fluent exactly if it is read as an atom whose last argument
is a run of digits with a value that a step can have. A plus sign, which numerals may have
elsewhere, starts no term and so is never found there. A text that is no atom is refused as
one, and every other text that is refused lacks the step.
-/

namespace Horizon

open Grammar

theorem Grammar.Term.stopsAt_plus {t : Text} (h : Term t) : Text.StopsAt (· == '+') t := by
  obtain ⟨c, r, rfl, hc⟩ := h.head
  rw [Text.stopsAt_cons, beq_eq_false_iff_ne]
  rintro rfl
  contradiction

namespace Atom

/-- The last argument is a run of digits, and its value fits in 32 bits. -/
def Stamped (a : Atom) : Prop :=
  ∃ last, a.arguments.getLast? = some last ∧ Digits last ∧
    Nat.ofDigitChars 10 last 0 ≤ 4294967295

end Atom

namespace Fluent

theorem read_eq_ok_iff_digits (s : Text) (f : Fluent) :
    Fluent.read s = .ok f ↔ ∃ last,
      Atom.read s = .ok ⟨f.atom.name, f.atom.arguments ++ [last]⟩ ∧ Digits last ∧
      f.step.map UInt32.toNat = some (Nat.ofDigitChars 10 last 0) := by
  simp only [read_eq_ok_iff, Atom.read_eq_ok_iff, Option.map_eq_some_iff]
  constructor
  · rintro ⟨last, n, hatom, hstep, hread⟩
    have plus := (hatom.parts last (by simp)).1.stopsAt_plus
    obtain ⟨hdigits, hvalue⟩ := (Numeral.read32_eq_ok_iff plus n).mp hread
    exact ⟨last, hatom, hdigits, n, hstep, hvalue.symm⟩
  · rintro ⟨last, hatom, hdigits, n, hstep, hvalue⟩
    have plus := Numeral.stopsAt_plus_of_digits hdigits
    exact ⟨last, n, hatom, hstep,
      (Numeral.read32_eq_ok_iff plus n).mpr ⟨hdigits, hvalue.symm⟩⟩

theorem exists_read_iff (s : Text) :
    (∃ f, Fluent.read s = .ok f) ↔ ∃ a, Atom.read s = .ok a ∧ a.Stamped := by
  simp only [read_eq_ok_iff_digits]
  constructor
  · rintro ⟨f, last, hatom, hdigits, hvalue⟩
    obtain ⟨n, -, hn⟩ := Option.map_eq_some_iff.mp hvalue
    have hlt : n.toNat < 4294967296 := n.toNat_lt
    exact ⟨_, hatom, last, by simp, hdigits, by omega⟩
  · rintro ⟨⟨name, arguments⟩, hatom, last, hlast, hdigits, hvalue⟩
    obtain ⟨front, rfl⟩ := List.getLast?_eq_some_iff.mp hlast
    have hlt : Nat.ofDigitChars 10 last 0 < UInt32.size := Nat.lt_succ_of_le hvalue
    refine ⟨⟨⟨name, front⟩, some (UInt32.ofNat (Nat.ofDigitChars 10 last 0))⟩, last, hatom,
      hdigits, ?_⟩
    rw [Option.map_some, UInt32.toNat_ofNat_of_lt' hlt]

theorem read_eq_error_iff (s : Text) (e : ReadError) :
    Fluent.read s = .error e ↔
      (e = .malformedAtom s ∧ ¬ ∃ a, Atom.read s = .ok a) ∨
      (e = .missingTimeStep s ∧ ∃ a, Atom.read s = .ok a ∧ ¬ ∃ f, Fluent.read s = .ok f) := by
  unfold Fluent.read
  cases hatom : Atom.read s with
  | error e' =>
      rw [((Atom.read_eq_error_iff s e').mp hatom).1]
      simp [eq_comm]
  | ok a => cases hf : ofAtom? a <;> simp [hf, eq_comm]

/-- A text is read as a fluent if and only if it is read as an atom whose last argument is a run
of digits with a value of at most 4294967295. The fluent has this value as its step, and the name
and the other arguments of the atom. The error of any other text tells whether it is an atom,
and carries the text as it was given. -/
theorem read_decides_step (s : Text) :
    ((∃ f, Fluent.read s = .ok f) ↔ ∃ a, Atom.read s = .ok a ∧ a.Stamped) ∧
    (∀ f, Fluent.read s = .ok f ↔ ∃ last,
      Atom.read s = .ok ⟨f.atom.name, f.atom.arguments ++ [last]⟩ ∧ Digits last ∧
      f.step.map UInt32.toNat = some (Nat.ofDigitChars 10 last 0)) ∧
    (∀ e, Fluent.read s = .error e ↔
      (e = .malformedAtom s ∧ ¬ ∃ a, Atom.read s = .ok a) ∨
      (e = .missingTimeStep s ∧ ∃ a, Atom.read s = .ok a ∧ ¬ a.Stamped)) := by
  refine ⟨exists_read_iff s, read_eq_ok_iff_digits s, ?_⟩
  intro e
  rw [read_eq_error_iff, exists_read_iff]
  have only : ∀ a, Atom.read s = .ok a → ((∃ b, Atom.read s = .ok b ∧ b.Stamped) ↔ a.Stamped) := by
    intro a ha
    simp [ha]
  constructor
  · rintro (h | ⟨he, a, ha, hnone⟩)
    · exact .inl h
    · exact .inr ⟨he, a, ha, by rwa [only a ha] at hnone⟩
  · rintro (h | ⟨he, a, ha, hnone⟩)
    · exact .inl h
    · exact .inr ⟨he, a, ha, by rwa [only a ha]⟩

example : Fluent.read " at(l3, 004294967295 )\n".toList =
    .ok ⟨⟨"at".toList, ["l3".toList]⟩, some 4294967295⟩ := rfl

example : Fluent.read " at(l3, 4294967296 )\n".toList =
    .error (.missingTimeStep " at(l3, 4294967296 )\n".toList) := rfl

end Fluent
end Horizon
