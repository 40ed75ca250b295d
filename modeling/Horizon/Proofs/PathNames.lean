import Horizon.FileTree.Resolve
import Horizon.Proofs.TextPieces

/-!
The names that a path is made of. A file name that a path ends in is a proper name: it stands
for an entry and not for a directory on the way. Joined to the path of a directory it is the
last name of the whole, and the names before it are those of the directory.
-/

namespace Horizon
namespace Path

/-- A component that stands for an entry of the directory it is looked for in. -/
structure IsName (n : Text) : Prop where
  ne_nil : n ≠ []
  ne_here : n ≠ ['.']
  ne_up : n ≠ ['.', '.']
  no_slash : '/' ∉ n

theorem IsName.not_idle {n : Text} (h : IsName n) : ¬ (n = [] ∨ n = ['.']) :=
  fun hidle => hidle.elim h.ne_nil h.ne_here

theorem names_append_slash (p q : Path) : names (p ++ '/' :: q) = names p ++ names q :=
  Text.pieces_append_cons '/' p q

theorem names_eq_singleton {n : Text} (h : '/' ∉ n) : names n = [n] :=
  Text.pieces_eq_singleton h

theorem no_slash_of_mem_names {p n : Text} (h : n ∈ names p) : '/' ∉ n :=
  Text.not_mem_of_mem_pieces h

/-! Joining. -/

/-- The names on the way to what a directory holds. A slash at the end of the directory's path
adds none, and the empty path has none. -/
def dirNames (dir : Path) : List Text :=
  match dir.getLast? with
  | none => []
  | some '/' => names dir.dropLast
  | some _ => names dir

theorem isAbsolute_eq_false {n : Text} (h : '/' ∉ n) : isAbsolute n = false := by
  cases n with
  | nil => rfl
  | cons c n =>
      have hc : c ≠ '/' := fun hc => h (hc ▸ List.mem_cons_self)
      simp [isAbsolute, hc]

theorem names_join {n : Text} (dir : Path) (h : '/' ∉ n) :
    names (join dir n) = dirNames dir ++ [n] := by
  rw [join, isAbsolute_eq_false h, dirNames]
  rcases List.eq_nil_or_concat dir with rfl | ⟨r, c, rfl⟩
  · exact names_eq_singleton h
  · by_cases hc : c = '/'
    · subst hc
      simp [names_append_slash, names_eq_singleton h]
    · have hsplit : names (r ++ [c] ++ '/' :: n) = names (r ++ [c]) ++ [n] := by
        rw [names_append_slash, names_eq_singleton h]
      simp [← hsplit]

theorem isAbsolute_join {n : Text} (dir : Path) (h : '/' ∉ n) :
    isAbsolute (join dir n) = isAbsolute dir := by
  have hn : isAbsolute n = false := isAbsolute_eq_false h
  rw [join, hn]
  cases dir with
  | nil => exact hn
  | cons c r =>
      simp only [List.getLast?_cons, Bool.false_eq_true, if_false]
      split
      · contradiction
      · rfl
      · rfl

/-! The last name. -/

theorem takeWhile_dropIdle_ne (s : Text) : (dropIdle s).takeWhile (· ≠ '/') ≠ ['.'] := by
  fun_induction dropIdle s with
  | case1 | case3 => simp
  | case2 r ih | case4 r ih => exact ih
  | case5 c r hslash hdot hdots =>
      intro h
      cases r with
      | nil => simp_all
      | cons d r => by_cases hd : d = '/' <;> simp_all

theorem isName_of_fileName? {p name : Text} (h : fileName? p = some name) : IsName name := by
  have hidle : (trimmed p).2.takeWhile (· ≠ '/') ≠ ['.'] := takeWhile_dropIdle_ne _
  have hslash : '/' ∉ (trimmed p).2.takeWhile (· ≠ '/') := by
    intro hmem
    have hne := Text.of_mem_takeWhile _ hmem
    simp at hne
  unfold fileName? at h
  generalize (trimmed p).2.takeWhile (· ≠ '/') = last at h hidle hslash
  split at h
  · contradiction
  · contradiction
  · rename_i hnil hup
    cases h
    refine ⟨by simpa using hnil, ?_, ?_, by simpa using hslash⟩
    · simpa [List.reverse_eq_iff] using hidle
    · simpa [List.reverse_eq_iff] using hup

end Path

namespace FileTree

open Horizon.Path

theorem names_pathOf {l : Location} (h : ∀ n ∈ l, '/' ∉ n) (hne : l ≠ []) :
    names (pathOf l) = [] :: l.reverse := by
  have hpath : pathOf l = l.reverse.flatMap fun n => '/' :: n := by simp [pathOf, hne]
  rw [hpath]
  clear hne hpath
  induction l with
  | nil => rfl
  | cons n dir ih =>
      rw [List.reverse_cons, List.flatMap_append, List.flatMap_singleton, names_append_slash,
        ih fun m hm => h m (List.mem_cons_of_mem n hm),
        names_eq_singleton (h n List.mem_cons_self), List.cons_append]

theorem isAbsolute_pathOf (l : Location) : isAbsolute (pathOf l) = true := by
  rcases List.eq_nil_or_concat l with rfl | ⟨r, n, rfl⟩
  · rfl
  · simp [pathOf, isAbsolute]

end FileTree
end Horizon
