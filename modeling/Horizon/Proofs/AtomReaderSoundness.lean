import Horizon.Atom.Reader
import Horizon.Proofs.AtomGrammar

/-!
What a reader takes from the front of a text is a piece of its kind, and the piece and
the rest together are the text. The readers of lists are stated for any reader of terms
that has this property; the term reader then has it at every depth.
-/

namespace Horizon
namespace Reader

open Grammar

/-- A reader only takes pieces of the kind, and loses nothing. -/
def Takes (Kind : Text → Prop) (read : Text → Option (Text × Text)) : Prop :=
  ∀ s t r, read s = some (t, r) → s = t ++ r ∧ Kind t

theorem takes_identifier : Takes Identifier identifier := by
  intro s t r h
  cases s with
  | nil => simp [identifier] at h
  | cons c s =>
      simp only [identifier] at h
      split at h
      · next hc =>
          cases h
          refine ⟨by simp, .mk hc ?_⟩
          exact Text.of_mem_takeWhile
      · contradiction

theorem takes_name : Takes Name name := by
  intro s t r h
  unfold name at h
  split at h
  · next u =>
      obtain ⟨⟨t', r'⟩, hread, heq⟩ := Option.map_eq_some_iff.mp h
      cases heq
      obtain ⟨rfl, hk⟩ := takes_identifier _ _ _ hread
      exact ⟨rfl, .negated hk⟩
  · obtain ⟨rfl, hk⟩ := takes_identifier _ _ _ h
    exact ⟨rfl, .plain hk⟩

theorem takes_digits : Takes Digits digits := by
  intro s t r h
  unfold digits at h
  split at h
  · contradiction
  · next d ds hd =>
      cases h
      refine ⟨?_, .mk (by simp) ?_⟩
      · rw [← hd, List.takeWhile_append_dropWhile]
      · rw [← hd]
        exact Text.of_mem_takeWhile

theorem takes_integer : Takes Integer integer := by
  intro s t r h
  unfold integer at h
  split at h
  · next u =>
      obtain ⟨⟨t', r'⟩, hread, heq⟩ := Option.map_eq_some_iff.mp h
      cases heq
      obtain ⟨rfl, hk⟩ := takes_digits _ _ _ hread
      exact ⟨rfl, .negative hk⟩
  · obtain ⟨rfl, hk⟩ := takes_digits _ _ _ h
    exact ⟨rfl, .plain hk⟩

theorem quotedTail_plain {c : Char} (escape : c ≠ '\\') (quote : c ≠ '"') (s : Text) :
    quotedTail (c :: s) = (quotedTail s).map fun p => (c :: p.1, p.2) := by
  simp [quotedTail, escape]

theorem takes_quotedTail : Takes QuotedTail quotedTail := by
  intro s
  induction s using quotedTail.induct with
  | case1 => intro t r h; simp [quotedTail] at h
  | case2 u =>
      intro t r h
      cases h
      exact ⟨rfl, .close⟩
  | case3 => intro t r h; simp [quotedTail] at h
  | case4 c u hc ih =>
      intro t r h
      simp only [quotedTail, hc, if_true] at h
      obtain ⟨⟨t', r'⟩, hread, heq⟩ := Option.map_eq_some_iff.mp h
      cases heq
      obtain ⟨rfl, hk⟩ := ih _ _ hread
      exact ⟨rfl, .escape hc hk⟩
  | case5 c u hc => intro t r h; simp [quotedTail, hc] at h
  | case6 c u hquote hlast hescape ih =>
      intro t r h
      have escape : c ≠ '\\' := by
        rintro rfl
        cases u with
        | nil => exact hlast rfl rfl
        | cons d u => exact hescape d u rfl rfl
      have quote : c ≠ '"' := fun hc => hquote hc
      rw [quotedTail_plain escape quote] at h
      obtain ⟨⟨t', r'⟩, hread, heq⟩ := Option.map_eq_some_iff.mp h
      cases heq
      obtain ⟨rfl, hk⟩ := ih _ _ hread
      exact ⟨rfl, .char escape quote hk⟩

theorem takes_quoted : Takes Quoted quoted := by
  intro s t r h
  unfold quoted at h
  split at h
  · obtain ⟨⟨t', r'⟩, hread, heq⟩ := Option.map_eq_some_iff.mp h
    cases heq
    obtain ⟨rfl, hk⟩ := takes_quotedTail _ _ _ hread
    exact ⟨rfl, .mk hk⟩
  · contradiction

theorem takes_constant (word : Text) : Takes (· = word) (constant word) := by
  intro s t r h
  unfold constant at h
  split at h
  · next hp =>
      obtain ⟨u, rfl⟩ := List.isPrefixOf_iff_prefix.mp hp
      cases h
      simp
  · contradiction

/-! Lists, over any reader that takes terms only. -/

section Lists

variable {read : Text → Option (Text × Text)}

/-- What was taken as an item starts a list, whatever more is found after it. -/
theorem item_sound (takes : Takes Term read) {s u t r : Text}
    (h : item read s = some (u, t, r)) :
    s = u ++ r ∧ ∀ v ts, MoreItems v ts → Items (u ++ v) (t :: ts) := by
  obtain ⟨⟨t', r'⟩, hread, heq⟩ := Option.map_eq_some_iff.mp h
  obtain ⟨hs, ht⟩ := takes _ _ _ hread
  cases heq
  refine ⟨?_, ?_⟩
  · calc s = s.takeWhile isSpace ++ s.dropWhile isSpace := List.takeWhile_append_dropWhile.symm
      _ = s.takeWhile isSpace ++ (t' ++ r') := by rw [hs]
      _ = s.takeWhile isSpace ++ (t' ++ (r'.takeWhile isSpace ++ r'.dropWhile isSpace)) := by
          rw [List.takeWhile_append_dropWhile]
      _ = _ := by simp
  · intro v ts hmore
    exact .of_more Text.of_mem_takeWhile ht Text.of_mem_takeWhile hmore

theorem moreItems_sound (takes : Takes Term read) (n : Nat) {s u r : Text} {ts : List Text}
    (h : moreItems read n s = (u, ts, r)) : s = u ++ r ∧ MoreItems u ts := by
  induction n generalizing s u ts r with
  | zero =>
      cases h
      exact ⟨rfl, .none⟩
  | succ n ih =>
      unfold moreItems at h
      split at h
      · next s' =>
          split at h
          · cases h
            exact ⟨rfl, .none⟩
          · next v t r' hitem =>
              obtain ⟨rfl, starts⟩ := item_sound takes hitem
              obtain ⟨hr, hmore⟩ := ih (s := r') rfl
              cases h
              exact ⟨by simpa using hr, .comma (starts _ _ hmore)⟩
      · cases h
        exact ⟨rfl, .none⟩

theorem items_sound (takes : Takes Term read) {s u r : Text} {ts : List Text}
    (h : items read s = (u, ts, r)) : s = u ++ r ∧ ((u = [] ∧ ts = []) ∨ Items u ts) := by
  unfold items at h
  split at h
  · cases h
    exact ⟨rfl, .inl ⟨rfl, rfl⟩⟩
  · next v t r' hitem =>
      obtain ⟨rfl, starts⟩ := item_sound takes hitem
      obtain ⟨hr, hmore⟩ := moreItems_sound takes r'.length (s := r') rfl
      cases h
      exact ⟨by simpa using hr, .inr (starts _ _ hmore)⟩

theorem arguments_sound (takes : Takes Term read) {s u r : Text} {ts : List Text}
    (h : arguments read s = some (u, ts, r)) : s = u ++ r ∧ Arguments u ts := by
  unfold arguments at h
  split at h
  · split at h
    · next v ts' r' hitems =>
        obtain ⟨rfl, hlist⟩ := items_sound takes hitems
        cases h
        refine ⟨by simp, ?_⟩
        rcases hlist with ⟨rfl, rfl⟩ | hlist
        · exact .none
        · exact .some hlist
    · contradiction
  · contradiction

/-- A name is followed by an argument list, or by nothing that was taken. -/
theorem application_sound (takes : Takes Term read) {s n u r : Text} {ts : List Text}
    (h : application read s = some (n, u, ts, r)) :
    s = n ++ u ++ r ∧ IsAtom (n ++ u) n ts := by
  obtain ⟨⟨n', s'⟩, hname, hp⟩ := Option.map_eq_some_iff.mp h
  obtain ⟨rfl, hn⟩ := takes_name _ _ _ hname
  dsimp only at hp
  split at hp
  · cases hp
    exact ⟨by simp, by simpa using IsAtom.bare hn⟩
  · next listing hargs =>
      cases hp
      obtain ⟨rfl, ha⟩ := arguments_sound takes hargs
      exact ⟨by simp, .applied hn ha⟩

end Lists

theorem takes_termWithin (n : Nat) : Takes Term (termWithin n) := by
  induction n with
  | zero => intro s t r h; contradiction
  | succ n ih =>
      intro s t r h
      simp only [termWithin, Option.or_eq_some_iff, Option.map_eq_some_iff] at h
      rcases h with h | ⟨-, h | ⟨-, h | ⟨-, h | ⟨-, ⟨⟨m, u, ts, r'⟩, h, heq⟩ |
        ⟨-, ⟨u, ts, r'⟩, h, heq⟩⟩⟩⟩⟩
      · exact (takes_quoted _ _ _ h).imp_right .quoted
      · exact (takes_integer _ _ _ h).imp_right .integer
      · obtain ⟨hs, rfl⟩ := takes_constant _ _ _ _ h
        exact ⟨hs, .infimum⟩
      · obtain ⟨hs, rfl⟩ := takes_constant _ _ _ _ h
        exact ⟨hs, .supremum⟩
      · cases heq
        obtain ⟨hs, hatom⟩ := application_sound ih h
        exact ⟨hs, hatom.term⟩
      · cases heq
        obtain ⟨hs, ha⟩ := arguments_sound ih h
        exact ⟨hs, .tuple ha⟩

end Reader
end Horizon
