import Horizon.Program.Form
import Horizon.Proofs.FluentRendering

/-!
Reading the fixed form back. A rendered atom tells where it ends, whatever follows it, and
none of the marks between the parts of a rule can start an atom, so the text of rules at one
step is made of the atoms of their heads and bodies in one way only. Time steps and the rules
that have no text are all that is lost.
-/

namespace Horizon

open Grammar

/-! Texts that tell where they end. -/

namespace Text

/-- What follows the text of one of these values decides neither the value nor where its text
ends. -/
def Delimits {α : Type} (p : α → Prop) (code : α → Text) : Prop :=
  ∀ x y, p x → p y → ∀ r s, code x ++ r = code y ++ s → x = y ∧ r = s

variable {α : Type} {p : α → Prop} {code : α → Text}

theorem Delimits.prepend (h : Delimits p code) (sep : Text) :
    Delimits p fun x => sep ++ code x := by
  intro x y hx hy r s heq
  simp only [List.append_assoc, List.append_cancel_left_eq] at heq
  exact h x y hx hy r s heq

/-- A sequence of such texts is of this kind too if no text of the sequence can start what
follows it. -/
theorem Delimits.flatMap (h : Delimits p code) (ends : Text → Prop)
    (stop : ∀ x, p x → ∀ u, ¬ ends (code x ++ u)) {xs ys : List α} (hx : ∀ x ∈ xs, p x)
    (hy : ∀ y ∈ ys, p y) {r s : Text} (hr : ends r) (hs : ends s)
    (heq : xs.flatMap code ++ r = ys.flatMap code ++ s) : xs = ys ∧ r = s := by
  induction xs generalizing ys with
  | nil =>
      cases ys with
      | nil => exact ⟨rfl, heq⟩
      | cons y ys =>
          simp only [List.flatMap_nil, List.nil_append, List.flatMap_cons,
            List.append_assoc] at heq
          rw [heq] at hr
          exact absurd hr (stop y (hy y List.mem_cons_self) _)
  | cons x xs ih =>
      cases ys with
      | nil =>
          simp only [List.flatMap_nil, List.nil_append, List.flatMap_cons,
            List.append_assoc] at heq
          rw [← heq] at hs
          exact absurd hs (stop x (hx x List.mem_cons_self) _)
      | cons y ys =>
          simp only [List.flatMap_cons, List.append_assoc] at heq
          obtain ⟨hxy, hrest⟩ := h x y (hx x List.mem_cons_self) (hy y List.mem_cons_self) _ _ heq
          obtain ⟨hxs, hrs⟩ := ih (fun z hz => hx z (List.mem_cons_of_mem x hz))
            (fun z hz => hy z (List.mem_cons_of_mem y hz)) hrest
          exact ⟨by rw [hxy, hxs], hrs⟩

/-- The same of texts with a separator between them, if what follows does not start as the
separator does. -/
theorem Delimits.join (h : Delimits p code) {c : Char} {sep : Text} {xs ys : List α}
    (hx : ∀ x ∈ xs, p x) (hy : ∀ y ∈ ys, p y) (hne : xs ≠ []) (hne' : ys ≠ []) {r s : Text}
    (hr : StopsAt (· == c) r) (hs : StopsAt (· == c) s)
    (heq : join (c :: sep) (xs.map code) ++ r = join (c :: sep) (ys.map code) ++ s) :
    xs = ys ∧ r = s := by
  obtain ⟨x, xs, rfl⟩ := List.exists_cons_of_ne_nil hne
  obtain ⟨y, ys, rfl⟩ := List.exists_cons_of_ne_nil hne'
  simp only [List.map_cons, join_cons, List.flatMap_map, List.append_assoc] at heq
  obtain ⟨hxy, hrest⟩ := h x y (hx x List.mem_cons_self) (hy y List.mem_cons_self) _ _ heq
  have stop : ∀ z, p z → ∀ u, ¬ StopsAt (· == c) ((c :: sep) ++ code z ++ u) := by
    intro z hz u hstop
    simp at hstop
  obtain ⟨hxs, hrs⟩ := (h.prepend (c :: sep)).flatMap _ stop
    (fun z hz => hx z (List.mem_cons_of_mem x hz)) (fun z hz => hy z (List.mem_cons_of_mem y hz))
    hr hs hrest
  exact ⟨by rw [hxy, hxs], hrs⟩

end Text

namespace Atom

/-- The list of arguments is not empty, so a parenthesis closes it. -/
theorem delimits_renderWith {extra : Text} (hextra : Term extra) :
    Text.Delimits WellFormed (renderWith extra) := by
  rintro ⟨m, as⟩ ⟨n, bs⟩ ha hb r s heq
  obtain ⟨u, hread⟩ := Reader.application_isAtom (r := r) (isAtom_renderWith ha hextra) (by simp)
  obtain ⟨v, hread'⟩ := Reader.application_isAtom (r := s) (isAtom_renderWith hb hextra) (by simp)
  rw [heq, hread'] at hread
  simp only [Option.some.injEq, Prod.mk.injEq, List.append_cancel_right_eq] at hread
  obtain ⟨rfl, -, rfl, rfl⟩ := hread
  exact ⟨rfl, rfl⟩

theorem renderWith_head {a : Atom} (h : a.WellFormed) (extra : Text) :
    ∃ c u, a.renderWith extra = c :: u ∧ (isNameStart c = true ∨ c = '-') := by
  obtain ⟨c, u, hname, hc⟩ := h.name.head
  exact ⟨c, u ++ '(' :: (Text.join [','] (a.arguments ++ [extra]) ++ [')']),
    by simp [renderWith, application, hname], hc⟩

end Atom

namespace Rule

/-- The atoms of the head and those of the body. -/
abbrev Skeleton := List Atom × List Atom

def skeleton (r : Rule) : Skeleton := (r.head.map Fluent.atom, r.body.map Fluent.atom)

/-- The names and arguments of all fluents are texts that the grammar derives. -/
def WellFormed (r : Rule) : Prop := ∀ f ∈ r.head ++ r.body, f.atom.WellFormed

namespace Skeleton

/-- What comes after the head. -/
def bodyText (step : Text) (body : List Atom) : Text :=
  (if body.isEmpty then []
   else ":- ".toList ++ Text.join ", ".toList (body.map (Atom.renderWith step))) ++ stop

def text (step : Text) (k : Skeleton) : Text :=
  Text.join " | ".toList (k.1.map (Atom.renderWith step)) ++ bodyText step k.2

structure WellFormed (k : Skeleton) : Prop where
  head : ∀ a ∈ k.1, a.WellFormed
  body : ∀ a ∈ k.2, a.WellFormed
  not_empty : k ≠ ([], [])

variable {step : Text}

theorem bodyText_nil : bodyText step [] = stop := rfl

theorem bodyText_cons (a : Atom) (body : List Atom) :
    bodyText step (a :: body) =
      ":- ".toList ++ (Text.join ", ".toList ((a :: body).map (Atom.renderWith step)) ++ stop) := by
  simp [bodyText]

theorem delimits_bodyText (hstep : Term step) :
    Text.Delimits (fun body => ∀ a ∈ body, a.WellFormed) (bodyText step) := by
  intro as bs ha hb r s heq
  cases as with
  | nil =>
      cases bs with
      | nil => exact ⟨rfl, List.append_cancel_left heq⟩
      | cons b bs => simp [bodyText_nil, bodyText_cons, stop] at heq
  | cons a as =>
      cases bs with
      | nil => simp [bodyText_nil, bodyText_cons, stop] at heq
      | cons b bs =>
          simp only [bodyText_cons, List.append_assoc, List.append_cancel_left_eq] at heq
          have ends : ∀ u, Text.StopsAt (· == ',') (stop ++ u) := by simp [stop]
          obtain ⟨hatoms, hrest⟩ := (Atom.delimits_renderWith hstep).join ha hb (by simp)
            (by simp) (ends r) (ends s) heq
          exact ⟨hatoms, List.append_cancel_left hrest⟩

/-- The body ends the head whether it has atoms or not. -/
theorem stopsAt_bodyText (body : List Atom) (u : Text) :
    Text.StopsAt (· == ' ') (bodyText step body ++ u) := by
  cases body with
  | nil => simp [bodyText_nil, stop]
  | cons a as => simp [bodyText_cons]

/-- No head starts as a body does. -/
theorem bodyText_ne_head {a : Atom} (ha : a.WellFormed) (as : List Atom) {body : List Atom}
    (u v : Text) :
    bodyText step body ++ u ≠
      Text.join " | ".toList ((a :: as).map (Atom.renderWith step)) ++ v := by
  intro heq
  obtain ⟨c, w, ha, hc⟩ := Atom.renderWith_head ha step
  rw [List.map_cons, Text.join_cons, ha] at heq
  have hfirst : c = ':' ∨ c = '.' := by
    cases body with
    | nil => simp [bodyText_nil, stop] at heq; exact .inr heq.1.symm
    | cons b bs => simp [bodyText_cons] at heq; exact .inl heq.1.symm
  rcases hfirst with rfl | rfl <;> rcases hc with hc | hc <;> contradiction

theorem delimits_text (hstep : Term step) : Text.Delimits WellFormed (text step) := by
  rintro ⟨as, body⟩ ⟨bs, body'⟩ ha hb r s heq
  simp only [text, List.append_assoc] at heq
  cases as with
  | nil =>
      cases bs with
      | nil =>
          obtain ⟨rfl, hrest⟩ := delimits_bodyText hstep body body' ha.body hb.body r s heq
          exact ⟨rfl, hrest⟩
      | cons b bs =>
          have hwf := hb.head b List.mem_cons_self
          exact absurd heq (bodyText_ne_head hwf bs r _)
  | cons a as =>
      cases bs with
      | nil =>
          have hwf := ha.head a List.mem_cons_self
          exact absurd heq.symm (bodyText_ne_head hwf as s _)
      | cons b bs =>
          obtain ⟨hhead, hrest⟩ := (Atom.delimits_renderWith hstep).join ha.head hb.head
            (by simp) (by simp) (stopsAt_bodyText body r) (stopsAt_bodyText body' s) heq
          obtain ⟨rfl, hrs⟩ := delimits_bodyText hstep body body' ha.body hb.body r s hrest
          exact ⟨congrArg (·, body) hhead, hrs⟩

end Skeleton

theorem fixed_eq_text (t : Step) {r : Rule} (h : r.isEmpty = false) :
    fixed (some t) r = Skeleton.text (Numeral.write t.toNat) r.skeleton := by
  have atoms : ∀ fs : List Fluent, fs.map (fun f => f.renderAt (Numeral.write t.toNat)) =
      (fs.map Fluent.atom).map (Atom.renderWith (Numeral.write t.toNat)) := by
    intro fs
    rw [List.map_map]
    rfl
  simp [fixed, h, separated, atoms, Skeleton.text, Skeleton.bodyText, skeleton]

/-- The rules that have a text. -/
def written (rules : List Rule) : List Rule := rules.filter fun r => !r.isEmpty

/-- Rules without text are not missed. -/
theorem flatMap_written {form : Rule → Text} (h : ∀ r, r.isEmpty = true → form r = [])
    (rules : List Rule) : (written rules).flatMap form = rules.flatMap form := by
  induction rules with
  | nil => rfl
  | cons r rules ih =>
      rw [List.flatMap_cons, ← ih]
      cases hr : r.isEmpty with
      | true => simp [written, hr, h r hr]
      | false => simp [written, hr]

theorem fixed_of_isEmpty {step : Option Step} {r : Rule} (h : r.isEmpty = true) :
    r.fixed step = [] := by
  simp [fixed, h]

theorem fixedAll_eq_flatMap (t : Step) (rules : List Rule) :
    fixedAll (some t) rules =
      ((written rules).map skeleton).flatMap (Skeleton.text (Numeral.write t.toNat)) := by
  rw [fixedAll, ← flatMap_written fun _ => fixed_of_isEmpty, List.flatMap_def, List.flatMap_def,
    List.map_map]
  refine congrArg List.flatten (List.map_congr_left ?_)
  intro r hr
  exact fixed_eq_text t (by simpa using (List.mem_filter.mp hr).2)

theorem wellFormed_skeleton {rules : List Rule} (h : ∀ r ∈ rules, r.WellFormed) :
    ∀ k ∈ (written rules).map skeleton, k.WellFormed := by
  intro k hk
  obtain ⟨r, hr, rfl⟩ := List.mem_map.mp hk
  obtain ⟨hr, hne⟩ := List.mem_filter.mp hr
  have atoms : ∀ fs : List Fluent, fs ⊆ r.head ++ r.body →
      ∀ a ∈ fs.map Fluent.atom, a.WellFormed := by
    intro fs hfs a ha
    obtain ⟨f, hf, rfl⟩ := List.mem_map.mp ha
    exact h r hr f (hfs hf)
  refine ⟨atoms _ (List.subset_append_left _ _), atoms _ (List.subset_append_right _ _), ?_⟩
  intro hempty
  simp_all [skeleton, isEmpty]

/-- Rules over the grammar have the same text at a step if and only if the rules among them
that are not empty have the same atoms in their heads and in their bodies, rule by rule and in
the same order. -/
theorem fixedAll_eq_iff (t : Step) {rules rules' : List Rule} (h : ∀ r ∈ rules, r.WellFormed)
    (h' : ∀ r ∈ rules', r.WellFormed) :
    fixedAll (some t) rules = fixedAll (some t) rules' ↔
      (written rules).map skeleton = (written rules').map skeleton := by
  rw [fixedAll_eq_flatMap, fixedAll_eq_flatMap]
  constructor
  · intro heq
    have unfinished : ∀ k : Skeleton, k.WellFormed →
        ∀ u, Skeleton.text (Numeral.write t.toNat) k ++ u ≠ [] := by
      intro k _ u
      simp [Skeleton.text, Skeleton.bodyText, stop]
    have delimits := Skeleton.delimits_text (Numeral.term_write t.toNat)
    exact (delimits.flatMap (· = []) unfinished (wellFormed_skeleton h)
      (wellFormed_skeleton h') rfl rfl (by rw [heq])).1
  · exact congrArg _

/-- An atom whose string holds every mark of a rule. -/
def markedAtom : Atom := ⟨"tells".toList, ["\"a, b | c:- d.\n\"".toList]⟩

/-- An atom that has no argument but a step. -/
def bareAtom : Atom := ⟨"-open".toList, []⟩

/-- Steps and empty rules make no difference to the text, but it does make one whether two
atoms are the body of one rule or of two. -/
theorem fixedAll_markedAtom :
    let rules := [constraint [⟨markedAtom, some 7⟩, ⟨bareAtom, none⟩], empty]
    let others := [constraint [⟨markedAtom, some 1⟩, ⟨bareAtom, some 2⟩]]
    let apart := [constraint [⟨markedAtom, none⟩], constraint [⟨bareAtom, none⟩]]
    ((∀ r ∈ rules, r.WellFormed) ∧ (∀ r ∈ others, r.WellFormed) ∧ ∀ r ∈ apart, r.WellFormed) ∧
    fixedAll (some 4) rules = fixedAll (some 4) others ∧
    fixedAll (some 4) rules ≠ fixedAll (some 4) apart := by
  intro rules others apart
  have marked : markedAtom.WellFormed :=
    Atom.wellFormed_of_read (s := "tells(\"a, b | c:- d.\n\")".toList) rfl
  have bare : bareAtom.WellFormed := Atom.wellFormed_of_read (s := "-open".toList) rfl
  have hrules : ∀ r ∈ rules, r.WellFormed := by
    simp [rules, WellFormed, constraint, empty, marked, bare]
  have hothers : ∀ r ∈ others, r.WellFormed := by
    simp [others, WellFormed, constraint, marked, bare]
  have hapart : ∀ r ∈ apart, r.WellFormed := by
    simp [apart, WellFormed, constraint, marked, bare]
  refine ⟨⟨hrules, hothers, hapart⟩, (fixedAll_eq_iff 4 hrules hothers).mpr rfl, ?_⟩
  rw [Ne, fixedAll_eq_iff 4 hrules hapart]
  decide

end Rule
end Horizon
