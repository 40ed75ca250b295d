import Horizon.Fluent
import Horizon.Proofs.AtomReading
import Horizon.Proofs.NumeralReading

/-!
Rendering and reading back. What is rendered for an atom is read as that atom exactly if
its name and its arguments are of the grammar, and the same holds of fluents with a step,
which are rendered as atoms with one argument more. Everything that was read once is of
this kind, so reading what was rendered changes nothing from then on.
-/

namespace Horizon

open Grammar

theorem Numeral.term_write (n : Nat) : Term (Numeral.write n) :=
  .integer (.plain (Numeral.digits_write n))

namespace Atom

/-- The name and the arguments are texts that the grammar derives. -/
structure WellFormed (a : Atom) : Prop where
  name : Name a.name
  arguments : ∀ t ∈ a.arguments, Term t

theorem isAtom_render_iff (a : Atom) :
    IsAtom a.render a.name a.arguments ↔ a.WellFormed := by
  rw [render, isAtom_application]
  exact ⟨fun h => ⟨h.1, h.2⟩, fun h => ⟨h.name, h.arguments⟩⟩

theorem wellFormed_of_isAtom {s : Text} {a : Atom} (h : IsAtom s a.name a.arguments) :
    a.WellFormed :=
  ⟨h.name, fun t ht => (h.parts t ht).1⟩

theorem wellFormed_of_read {s : Text} {a : Atom} (h : Atom.read s = .ok a) : a.WellFormed :=
  wellFormed_of_isAtom ((read_eq_ok_iff s a).mp h)

theorem read_render {a : Atom} (h : a.WellFormed) : Atom.read a.render = .ok a := by
  have hatom := (isAtom_render_iff a).mpr h
  rw [read_eq_ok_iff, hatom.trim_eq]
  exact hatom

/-- The text of an atom with one argument more. -/
def renderWith (extra : Text) (a : Atom) : Text := application a.name (a.arguments ++ [extra])

theorem isAtom_renderWith {a : Atom} (h : a.WellFormed) {extra : Text} (hextra : Term extra) :
    IsAtom (a.renderWith extra) a.name (a.arguments ++ [extra]) := by
  rw [renderWith, isAtom_application]
  refine ⟨h.name, ?_⟩
  intro t ht
  rcases List.mem_append.mp ht with ht | ht
  · exact h.arguments t ht
  · rw [List.mem_singleton.mp ht]
    exact hextra

/-- A name applied to parts is one word if all of these are. -/
theorem solid_application {n : Text} {parts : List Text} (hn : Text.Solid n)
    (hp : ∀ t ∈ parts, Text.Solid t) : Text.Solid (application n parts) := by
  unfold application
  split
  · exact hn
  · refine ⟨by simp, ?_⟩
    intro c hc
    simp only [List.mem_append, List.mem_cons, List.not_mem_nil, or_false] at hc
    rcases hc with hc | rfl | hc | rfl
    · exact hn.no_blank c hc
    · decide
    · rcases Text.mem_join hc with hc | ⟨t, ht, hc⟩
      · rw [List.mem_singleton.mp hc]
        decide
      · exact (hp t ht).no_blank c hc
    · decide

end Atom

namespace Fluent

/-- The last argument of the atom is the numeral of the step. -/
theorem ofAtom?_eq_some_iff (a : Atom) (f : Fluent) :
    ofAtom? a = some f ↔ ∃ last n, a.name = f.atom.name ∧
      a.arguments = f.atom.arguments ++ [last] ∧ f.step = some n ∧
      Numeral.read32 last = .ok n := by
  unfold ofAtom?
  constructor
  · intro h
    split at h
    · contradiction
    · next last hlast =>
        split at h
        · next n hn =>
            cases h
            refine ⟨last, n, rfl, ?_, rfl, hn⟩
            obtain ⟨args, hargs⟩ := List.getLast?_eq_some_iff.mp hlast
            simp [hargs]
        · contradiction
  · rintro ⟨last, n, hname, hargs, hstep, hn⟩
    obtain ⟨⟨name, args⟩, step⟩ := f
    simp only at hname hargs hstep
    simp [hargs, hn, hstep, hname]

theorem read_eq_ok_iff (s : Text) (f : Fluent) :
    Fluent.read s = .ok f ↔ ∃ last n,
      IsAtom (Text.trim s) f.atom.name (f.atom.arguments ++ [last]) ∧ f.step = some n ∧
      Numeral.read32 last = .ok n := by
  constructor
  · intro h
    unfold Fluent.read at h
    split at h
    · contradiction
    · next a ha =>
        split at h
        · next g hg =>
            cases h
            obtain ⟨last, n, hname, hargs, hstep, hn⟩ := (ofAtom?_eq_some_iff a f).mp hg
            refine ⟨last, n, ?_, hstep, hn⟩
            rw [← hname, ← hargs]
            exact (Atom.read_eq_ok_iff s a).mp ha
        · contradiction
  · rintro ⟨last, n, hatom, hstep, hn⟩
    have ha : Atom.read s = .ok ⟨f.atom.name, f.atom.arguments ++ [last]⟩ :=
      (Atom.read_eq_ok_iff s _).mpr hatom
    have hf : ofAtom? ⟨f.atom.name, f.atom.arguments ++ [last]⟩ = some f :=
      (ofAtom?_eq_some_iff _ f).mpr ⟨last, n, rfl, rfl, hstep, hn⟩
    simp [Fluent.read, ha, hf]

theorem wellFormed_of_read {s : Text} {f : Fluent} (h : Fluent.read s = .ok f) :
    (∃ n, f.step = some n) ∧ f.atom.WellFormed := by
  obtain ⟨last, n, hatom, hstep, -⟩ := (read_eq_ok_iff s f).mp h
  refine ⟨⟨n, hstep⟩, hatom.name, ?_⟩
  intro t ht
  exact (hatom.parts t (List.mem_append_left [last] ht)).1

theorem isAtom_renderAt {f : Fluent} (h : f.atom.WellFormed) (n : Step) :
    IsAtom (f.renderAt (Numeral.write n.toNat)) f.atom.name
      (f.atom.arguments ++ [Numeral.write n.toNat]) :=
  Atom.isAtom_renderWith h (Numeral.term_write n.toNat)

theorem isAtom_render {f : Fluent} {n : Step} (hstep : f.step = some n) (h : f.atom.WellFormed) :
    IsAtom f.render f.atom.name (f.atom.arguments ++ [Numeral.write n.toNat]) := by
  have hrender : f.render = f.renderAt (Numeral.write n.toNat) := by simp [render, hstep]
  rw [hrender]
  exact isAtom_renderAt h n

theorem read_render {f : Fluent} {n : Step} (hstep : f.step = some n) (h : f.atom.WellFormed) :
    Fluent.read f.render = .ok f := by
  have hatom := isAtom_render hstep h
  rw [read_eq_ok_iff, hatom.trim_eq]
  exact ⟨_, n, hatom, hstep, Numeral.read32_write n⟩

end Fluent

/-- Exactly the atoms over the grammar, and exactly the fluents over it that have a step,
are read back from their rendering. Everything that was read is of this kind, and so two
fluents that were read are the same if they are rendered the same. -/
theorem read_render_iff :
    (∀ a : Atom, Atom.read a.render = .ok a ↔
      Name a.name ∧ ∀ t ∈ a.arguments, Term t) ∧
    (∀ f : Fluent, Fluent.read f.render = .ok f ↔
      f.step.isSome = true ∧ Name f.atom.name ∧ ∀ t ∈ f.atom.arguments, Term t) ∧
    (∀ s f, Fluent.read s = .ok f → Fluent.read f.render = .ok f) ∧
    (∀ s t f g, Fluent.read s = .ok f → Fluent.read t = .ok g → f.render = g.render →
      f = g) := by
  have again : ∀ s f, Fluent.read s = .ok f → Fluent.read f.render = .ok f := by
    intro s f h
    obtain ⟨⟨n, hstep⟩, hf⟩ := Fluent.wellFormed_of_read h
    exact Fluent.read_render hstep hf
  refine ⟨?_, ?_, again, ?_⟩
  · intro a
    constructor
    · intro h
      have ha := Atom.wellFormed_of_read h
      exact ⟨ha.name, ha.arguments⟩
    · rintro ⟨hn, hp⟩
      exact Atom.read_render ⟨hn, hp⟩
  · intro f
    constructor
    · intro h
      obtain ⟨⟨n, hstep⟩, hf⟩ := Fluent.wellFormed_of_read h
      exact ⟨by simp [hstep], hf.name, hf.arguments⟩
    · rintro ⟨hstep, hn, hp⟩
      obtain ⟨n, hstep⟩ := Option.isSome_iff_exists.mp hstep
      exact Fluent.read_render hstep ⟨hn, hp⟩
  · intro s t f g hf hg heq
    have hf' := again s f hf
    rw [heq, again t g hg] at hf'
    injection hf' with hgf
    exact hgf.symm

end Horizon
