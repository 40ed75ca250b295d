import Horizon.Proofs.AtomReaderCompleteness

/-!
The atom reader decides the grammar. Soundness gives a derivation for whatever is read,
completeness reads whatever is derived, and since a reader gives one result the grammar
derives a text as one atom only.
-/

namespace Horizon

open Grammar

namespace Reader

/-- An atom at the front of a longer text is read as far as it goes. -/
theorem application_isAtom {s r n : Text} {parts : List Text} (h : IsAtom s n parts)
    (hr : parts = [] → Text.StopsAt goesOn r) :
    ∃ u, application (termWithin ((s ++ r).length + 1)) (s ++ r) = some (n, u, parts, r) := by
  have whole : ∀ t ∈ parts, TakesWhole (termWithin ((s ++ r).length + 1)) t := by
    intro t ht
    have hle := (h.parts t ht).2.length_le
    have hlen : (s ++ r).length = s.length + r.length := List.length_append
    exact termWithin_append (h.parts t ht).1 (by omega)
  obtain ⟨u, -, hread⟩ := application_append (takes_termWithin _) h whole hr
  exact ⟨u, hread⟩

theorem atom?_eq_some_iff (s : Text) (a : Atom) :
    atom? s = some a ↔ IsAtom s a.name a.arguments := by
  constructor
  · intro h
    unfold atom? at h
    split at h
    · next n u parts hread =>
        cases h
        obtain ⟨hs, hatom⟩ := application_sound (takes_termWithin (s.length + 1)) hread
        rw [List.append_nil] at hs
        rwa [hs]
    · contradiction
  · intro h
    obtain ⟨u, hread⟩ := application_isAtom (r := []) h (by simp)
    rw [List.append_nil] at hread
    rw [atom?, hread]

end Reader

namespace Grammar

/-- A text is an atom in one way at most. -/
theorem IsAtom.unique {s m n : Text} {ps qs : List Text} (h : IsAtom s m ps)
    (k : IsAtom s n qs) : m = n ∧ ps = qs := by
  have hp := (Reader.atom?_eq_some_iff s ⟨m, ps⟩).mpr h
  have hq := (Reader.atom?_eq_some_iff s ⟨n, qs⟩).mpr k
  rw [hp] at hq
  cases hq
  exact ⟨rfl, rfl⟩

/-- No atom goes on after an atom, unless a bare name does as a longer name or with an
argument list. -/
theorem IsAtom.eq_nil_of_append {s r m n : Text} {ps qs : List Text} (h : IsAtom s m ps)
    (k : IsAtom (s ++ r) n qs) (hr : ps = [] → Text.StopsAt Reader.goesOn r) : r = [] := by
  obtain ⟨u, hs⟩ := Reader.application_isAtom h hr
  obtain ⟨v, hw⟩ := Reader.application_isAtom (r := []) k (by simp)
  rw [List.append_nil, hs] at hw
  cases hw
  rfl

end Grammar

namespace Atom

theorem read_eq_ok_iff (s : Text) (a : Atom) :
    Atom.read s = .ok a ↔ IsAtom (Text.trim s) a.name a.arguments := by
  rw [← Reader.atom?_eq_some_iff]
  unfold Atom.read
  split
  · next b hb => simp [hb]
  · next hb => simp [hb]

theorem exists_read_iff (s : Text) :
    (∃ a, Atom.read s = .ok a) ↔ ∃ name parts, IsAtom (Text.trim s) name parts := by
  constructor
  · rintro ⟨a, h⟩
    exact ⟨a.name, a.arguments, (read_eq_ok_iff s a).mp h⟩
  · rintro ⟨n, ps, h⟩
    exact ⟨⟨n, ps⟩, (read_eq_ok_iff s ⟨n, ps⟩).mpr h⟩

theorem read_eq_error_iff (s : Text) (e : ReadError) :
    Atom.read s = .error e ↔
      e = .malformedAtom s ∧ ¬ ∃ name parts, IsAtom (Text.trim s) name parts := by
  rw [← exists_read_iff]
  unfold Atom.read
  split
  · simp
  · simp [eq_comm]

/-- Reading succeeds on exactly the texts that the grammar derives once the blanks around
them are gone; it gives the name and the parts of the derivation, and a refused text is
reported as it was given. -/
theorem read_decides_grammar (s : Text) :
    ((∃ a, Atom.read s = .ok a) ↔ ∃ name parts, IsAtom (Text.trim s) name parts) ∧
    (∀ a, Atom.read s = .ok a ↔ IsAtom (Text.trim s) a.name a.arguments) ∧
    (∀ e, Atom.read s = .error e ↔
      e = .malformedAtom s ∧ ¬ ∃ name parts, IsAtom (Text.trim s) name parts) :=
  ⟨exists_read_iff s, read_eq_ok_iff s, read_eq_error_iff s⟩

example : Atom.read " -at( l3_414 , f( 1,2),() )\n".toList =
    .ok ⟨"-at".toList, ["l3_414".toList, "f( 1,2)".toList, "()".toList]⟩ := rfl

end Atom
end Horizon
