import Horizon.Proofs.FluentRendering
import Horizon.Proofs.OutputReadings

/-!
Answer lines: the fluents of an answer set rendered and joined by blanks. A line is cut into
words before any term is read, so a blank inside an argument ends a word there. A line is
read back if no argument has a blank in it, and every other line is refused.
-/

namespace Horizon

open Grammar

namespace Fluent

/-- A fluent that has a step and is over the grammar. -/
structure WellFormed (f : Fluent) : Prop where
  stepped : ∃ n, f.step = some n
  atom : f.atom.WellFormed

theorem WellFormed.read_render {f : Fluent} (h : f.WellFormed) : Fluent.read f.render = .ok f := by
  obtain ⟨n, hstep⟩ := h.stepped
  exact Fluent.read_render hstep h.atom

/-- Whether an argument has a blank in it, in a string or between the parts of a term. -/
def isSpaced (f : Fluent) : Bool := f.atom.arguments.any fun t => t.any Text.isBlank

theorem isSpaced_eq_true_iff (f : Fluent) :
    f.isSpaced = true ↔ ∃ t ∈ f.atom.arguments, ∃ c ∈ t, Text.isBlank c = true := by
  simp [isSpaced]

theorem isSpaced_eq_false_iff (f : Fluent) :
    f.isSpaced = false ↔ ∀ t ∈ f.atom.arguments, ∀ c ∈ t, Text.isBlank c = false := by
  simp [isSpaced]

theorem solid_render {f : Fluent} (h : f.WellFormed) (hf : f.isSpaced = false) :
    Text.Solid f.render := by
  obtain ⟨n, hstep⟩ := h.stepped
  have hrender : f.render = f.renderAt (Numeral.write n.toNat) := by simp [render, hstep]
  rw [hrender]
  apply Atom.solid_application h.atom.name.solid
  intro t ht
  rcases List.mem_append.mp ht with ht | ht
  · exact ⟨(h.atom.arguments t ht).ne_nil, (isSpaced_eq_false_iff f).mp hf t ht⟩
  · rw [List.mem_singleton] at ht
    rw [ht]
    exact (Numeral.digits_write n.toNat).solid

/-- The part of a rendering before its first blank is a word, and the word is no atom, since
an atom does not go on with a blank after it. -/
theorem render_split {f : Fluent} (h : f.WellFormed) (hf : f.isSpaced = true) :
    ∃ w c r, f.render = w ++ c :: r ∧ Text.isBlank c = true ∧ Text.Solid w ∧
      Fluent.read w = .error (.malformedAtom w) := by
  obtain ⟨n, hstep⟩ := h.stepped
  have hatom := isAtom_render hstep h.atom
  have blank : ∃ c ∈ f.render, Text.isBlank c = true := by
    obtain ⟨t, ht, c, hc, hblank⟩ := (isSpaced_eq_true_iff f).mp hf
    have hin := (hatom.parts t (List.mem_append_left _ ht)).2
    exact ⟨c, hin.subset hc, hblank⟩
  obtain ⟨w, c, r, hsplit, hw, hc⟩ := Text.exists_word_of_blank hatom.stopsAt_isBlank blank
  have unread : Atom.read w = .error (.malformedAtom w) := by
    rw [Atom.read_eq_error_iff, hw.trim_eq]
    refine ⟨rfl, ?_⟩
    rintro ⟨m, ps, hm⟩
    rw [hsplit] at hatom
    have stop : Text.StopsAt Reader.goesOn (c :: r) :=
      (Text.stopsAt_cons _ _ _).mpr (Reader.goesOn_of_isBlank hc)
    have hnil := hm.eq_nil_of_append hatom fun _ => stop
    contradiction
  exact ⟨w, c, r, hsplit, hc, hw, by rw [Fluent.read, unread]⟩

end Fluent

namespace Reading

theorem each_line_of_unspaced {fs : List Fluent} (h : ∀ f ∈ fs, f.WellFormed)
    (hs : ∀ f ∈ fs, f.isSpaced = false) :
    each Fluent.read (Text.words (Text.join [' '] (fs.map Fluent.render))) = .ok fs :=
  each_words_join (fun f hf => Fluent.solid_render (h f hf) (hs f hf))
    fun f hf => (h f hf).read_render

/-- The fluents before the first one with a blank are read, and this one is refused. -/
theorem each_line_of_spaced {fs : List Fluent} (h : ∀ f ∈ fs, f.WellFormed)
    (hs : ∃ f ∈ fs, f.isSpaced = true) :
    ∃ f ∈ fs, ∃ w c r, f.render = w ++ c :: r ∧ Text.isBlank c = true ∧ Text.Solid w ∧
      each Fluent.read (Text.words (Text.join [' '] (fs.map Fluent.render))) =
        .error (.malformedAtom w) := by
  obtain ⟨f, hfound⟩ := Option.isSome_iff_exists.mp (List.find?_isSome.mpr hs)
  obtain ⟨hf, before, after, rfl, hbefore⟩ := List.find?_eq_some_iff_append.mp hfound
  have earlier : ∀ g ∈ before, g.WellFormed := fun g hg => h g (List.mem_append_left _ hg)
  have mem : f ∈ before ++ f :: after := by simp
  obtain ⟨w, c, r, hsplit, hc, hw, hread⟩ := Fluent.render_split (h f mem) hf
  refine ⟨f, mem, w, c, r, hsplit, hc, hw, ?_⟩
  have solid : ∀ v ∈ before.map Fluent.render, Text.Solid v := by
    rw [List.forall_mem_map]
    exact fun g hg => Fluent.solid_render (earlier g hg) (by simpa using hbefore g hg)
  have words : Text.words (Text.join [' '] ((before ++ f :: after).map Fluent.render)) =
      before.map Fluent.render ++
        w :: (Text.words r ++ (after.map Fluent.render).flatMap Text.words) := by
    rw [Text.words_join_eq_flatMap, List.map_append, List.flatMap_append,
      Text.flatMap_words_solid solid, List.map_cons, List.flatMap_cons, hsplit,
      Text.words_append_blank hc, hw.words_eq]
    rfl
  rw [each_eq_error_iff, findSome?_refusal?_eq_some_iff]
  refine ⟨_, w, _, words, hread, ?_⟩
  rw [List.forall_mem_map]
  exact fun g hg => ⟨g, (earlier g hg).read_render⟩

/-- A line whose fluents all have a step and are over the grammar is read back if and only if
no argument has a blank in it. Otherwise a rendering with a blank is refused, and the error
names the part of it that comes before its first blank. -/
theorem fluents_line_iff (a : AnswerSet)
    (h : ∀ f ∈ a.fluents, f.step.isSome = true ∧ Name f.atom.name ∧
      ∀ t ∈ f.atom.arguments, Term t) :
    let line := Text.join [' '] (a.fluents.map Fluent.render)
    (fluents line = .ok a ↔
      ∀ f ∈ a.fluents, ∀ t ∈ f.atom.arguments, ∀ c ∈ t, Text.isBlank c = false) ∧
    ((∃ f ∈ a.fluents, ∃ t ∈ f.atom.arguments, ∃ c ∈ t, Text.isBlank c = true) →
      ∃ f ∈ a.fluents, ∃ w c r, f.render = w ++ c :: r ∧ Text.isBlank c = true ∧
        (∀ d ∈ w, Text.isBlank d = false) ∧ fluents line = .error (.malformedAtom w)) := by
  intro line
  have formed : ∀ f ∈ a.fluents, f.WellFormed := by
    intro f hf
    obtain ⟨hstep, hn, hp⟩ := h f hf
    exact ⟨Option.isSome_iff_exists.mp hstep, hn, hp⟩
  have refused : (∃ f ∈ a.fluents, f.isSpaced = true) →
      ∃ f ∈ a.fluents, ∃ w c r, f.render = w ++ c :: r ∧ Text.isBlank c = true ∧
        (∀ d ∈ w, Text.isBlank d = false) ∧ fluents line = .error (.malformedAtom w) := by
    intro hs
    obtain ⟨f, hf, w, c, r, hsplit, hc, hw, hread⟩ := each_line_of_spaced formed hs
    exact ⟨f, hf, w, c, r, hsplit, hc, hw.no_blank, (fluents_eq_error_iff line _).mpr hread⟩
  refine ⟨⟨?_, ?_⟩, ?_⟩
  · intro hread f hf
    rw [← Fluent.isSpaced_eq_false_iff]
    cases hs : f.isSpaced with
    | false => rfl
    | true =>
        obtain ⟨g, -, w, c, r, -, -, -, herror⟩ := refused ⟨f, hf, hs⟩
        rw [hread] at herror
        contradiction
  · intro hblank
    rw [fluents_eq_ok_iff]
    exact each_line_of_unspaced formed
      fun f hf => (Fluent.isSpaced_eq_false_iff f).mpr (hblank f hf)
  · rintro ⟨f, hf, hblank⟩
    exact refused ⟨f, hf, (Fluent.isSpaced_eq_true_iff f).mpr hblank⟩

/-- A fluent with a string and a nested term, and one with no argument but its step. -/
def unspacedAnswer : AnswerSet where
  fluents :=
    [⟨⟨"-tells".toList, ["\"b\\\"(,\"".toList, "f((1,2),-x(#sup))".toList]⟩, some 7⟩,
      ⟨⟨"goal".toList, []⟩, some 4294967295⟩]

theorem fluents_line_unspaced :
    (∀ f ∈ unspacedAnswer.fluents, f.step.isSome = true ∧ Name f.atom.name ∧
      ∀ t ∈ f.atom.arguments, Term t) ∧
    fluents (Text.join [' '] (unspacedAnswer.fluents.map Fluent.render)) = .ok unspacedAnswer := by
  have tells : Atom.WellFormed
      ⟨"-tells".toList, ["\"b\\\"(,\"".toList, "f((1,2),-x(#sup))".toList]⟩ :=
    Atom.wellFormed_of_read (s := "-tells(\"b\\\"(,\",f((1,2),-x(#sup)))".toList) rfl
  have goal : Atom.WellFormed ⟨"goal".toList, []⟩ :=
    Atom.wellFormed_of_read (s := "goal".toList) rfl
  have formed : ∀ f ∈ unspacedAnswer.fluents, f.step.isSome = true ∧ Name f.atom.name ∧
      ∀ t ∈ f.atom.arguments, Term t := by
    intro f hf
    simp only [unspacedAnswer, List.mem_cons, List.not_mem_nil, or_false] at hf
    rcases hf with rfl | rfl
    · exact ⟨rfl, tells.name, tells.arguments⟩
    · exact ⟨rfl, goal.name, goal.arguments⟩
  refine ⟨formed, (fluents_line_iff unspacedAnswer formed).1.mpr ?_⟩
  simp [unspacedAnswer, Text.isBlank]

def quotedBlank : Fluent := ⟨⟨"p".toList, ["\"a b\"".toList]⟩, some 1⟩

/-- The string is a term, but the line is cut inside it. -/
theorem fluents_line_quotedBlank :
    (∀ f ∈ [quotedBlank], f.step.isSome = true ∧ Name f.atom.name ∧
      ∀ t ∈ f.atom.arguments, Term t) ∧
    fluents (Text.join [' '] ([quotedBlank].map Fluent.render)) ≠ .ok ⟨[quotedBlank]⟩ := by
  have formed : Atom.WellFormed ⟨"p".toList, ["\"a b\"".toList]⟩ :=
    Atom.wellFormed_of_read (s := "p(\"a b\")".toList) rfl
  have refused : fluents (Text.join [' '] ([quotedBlank].map Fluent.render)) =
      .error (.malformedAtom "p(\"a".toList) := rfl
  refine ⟨?_, ?_⟩
  · intro f hf
    rw [List.mem_singleton] at hf
    rw [hf]
    exact ⟨rfl, formed.name, formed.arguments⟩
  · rw [refused]
    simp

end Reading
end Horizon
