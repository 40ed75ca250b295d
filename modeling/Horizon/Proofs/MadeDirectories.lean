import Horizon.Proofs.ParallelWrites

/-!
Directories that are made with the parents they lack. Each of them is where the path, or one of
its parents, leads afterwards, and nothing stood there before. Once this has succeeded the path
leads to a directory, so making it again does nothing.
-/

namespace Horizon
namespace FileTree

open FileOp Horizon.Path

variable {t u v base : FileTree} {aim : Aim} {k : Nat} {dir d l : Location} {n : Text}
  {xs ys : List Text} {p q root : Path} {paths : List Path}

theorem resolves_of_empty (h : ∀ m ∈ xs, m = []) : t.Resolves aim k d xs (.found d) := by
  induction xs with
  | nil => exact .done
  | cons m xs ih =>
      rw [List.forall_mem_cons] at h
      exact .idle (.inl h.1) (ih h.2)

/-- A walk that misses a name comes to it once it is a directory, with slashes after it or not. -/
theorem Resolves.of_absent {slash : Bool} (w : t.Within u)
    (h : t.Resolves aim k dir xs (.absent d n slash)) (he : u.at? (n :: d) = some .directory)
    (hys : ∀ m ∈ ys, m = []) : u.Resolves .target k dir (xs ++ ys) (.found (n :: d)) := by
  generalize hplace : Place.absent d n slash = place at h
  induction h with
  | done | entry => cases hplace
  | idle hn _ ih => exact .idle hn (ih hplace)
  | up _ ih => exact .up (ih hplace)
  | down hs _ he' _ ih => exact .down hs nofun (w.keeps _ _ he') (ih hplace)
  | follow hs _ he' _ _ ih =>
      have hrest := ih hplace
      rw [List.append_assoc] at hrest
      exact .follow hs nofun (w.keeps _ _ he') nofun hrest
  | absent hs _ _ hrest =>
      cases hplace
      exact .down hs nofun he (resolves_of_empty (List.forall_mem_append.mpr ⟨hrest, hys⟩))

/-- A walk to a directory leads there, through no more links than it may follow. -/
theorem Resolves.leads (h : t.Resolves aim k dir xs (.found l)) (he : t.at? l = some .directory) :
    ∃ i ≤ k, t.Leads i dir xs l := by
  generalize hplace : Place.found l = place at h
  induction h with
  | done =>
      cases hplace
      exact ⟨0, Nat.zero_le _, .here⟩
  | idle hn _ ih =>
      obtain ⟨i, hi, hl⟩ := ih hplace
      exact ⟨i, hi, .idle hn hl⟩
  | up _ ih =>
      obtain ⟨i, hi, hl⟩ := ih hplace
      exact ⟨i, hi, .up hl⟩
  | down hs _ he' _ ih =>
      obtain ⟨i, hi, hl⟩ := ih hplace
      exact ⟨i, hi, .down hs he' hl⟩
  | follow hs _ he' _ _ ih =>
      obtain ⟨i, hi, hl⟩ := ih hplace
      exact ⟨i + 1, Nat.succ_le_succ hi, .follow hs he' hl⟩
  | entry _ he' hd =>
      cases hplace
      exact absurd (Option.some.inj (he'.symm.trans he)) hd
  | absent => cases hplace

/-! What is made. -/

theorem existing_of_makeDirectory (h : makeDirectory p t = (.ok (), u)) :
    ∃ l, t.at? l = none ∧ t.Sets l (some .directory) u ∧ u.existing .target p = .ok l := by
  obtain ⟨dir, name, slash, hp, hr, hset⟩ := makeDirectory_ok h
  have w : t.Within u := (extended_of_sets hr.at?_eq_none hset).within
  obtain ⟨zs, hzs, hnames⟩ := eq_withoutSlashes_append (names p)
  have hfound := hr.of_absent w hset.at?_self hzs
  rw [← hnames, ← w.start_eq] at hfound
  exact ⟨name :: dir, hr.at?_eq_none, hset, existing_ok_iff.mpr ⟨hp, hfound⟩⟩

/-- `u` is `t` with directories that are new where some of the paths lead. -/
structure Made (paths : List Path) (t u : FileTree) : Prop extends Extended t u where
  leads : ∀ l, t.at? l = none → u.at? l = some .directory →
    ∃ q ∈ paths, u.existing .target q = .ok l

theorem Made.refl (paths : List Path) (t : FileTree) : Made paths t t := by
  refine ⟨.refl t, fun l hnone hdir => ?_⟩
  cases hnone.symm.trans hdir

theorem Made.trans (h : Made paths t u) (h' : Made paths u v) : Made paths t v := by
  refine ⟨h.toExtended.trans h'.toExtended, fun l hnone hdir => ?_⟩
  rcases h.at?_eq l with hl | ⟨-, hnew⟩
  · exact h'.leads l (hl.trans hnone) hdir
  · obtain ⟨q, hq, hl⟩ := h.leads l hnone hnew
    exact ⟨q, hq, existing_mono h'.within hl⟩

theorem makes_makeDirectory (hq : q ∈ paths) : Moves (Made paths) (makeDirectory q) := by
  refine moves_change (Made.refl paths) fun t _ u h => ?_
  obtain ⟨l, free, hset, hl⟩ := existing_of_makeDirectory (change_ok_iff.mpr h)
  refine ⟨extended_of_sets free hset, fun m hnone hdir => ⟨q, hq, ?_⟩⟩
  by_cases hm : m = l
  · rw [hm, hl]
  · rw [hset.at?_of_ne hm, hnone] at hdir
    cases hdir

theorem makes_makeDirectories (root : Path) :
    Moves (Made (root :: ancestors root)) (makeDirectories root) :=
  moves_makeDirectoriesBelow (.refl _) .trans fun _ hq => makes_makeDirectory hq

/-! Making it again. -/

theorem isDirectoryAt_of_makeDirectory (h : makeDirectory p t = (.ok (), u)) :
    u.isDirectoryAt p = true := by
  obtain ⟨l, -, hset, hl⟩ := existing_of_makeDirectory h
  exact isDirectoryAt_iff.mpr (status_ok_iff.mpr ⟨l, hl, hset.at?_self⟩)

theorem isDirectoryAt_of_unlessDirectory {e : FileError}
    (h : (do if (← get).isDirectoryAt p then return () else throw e : FileOp Unit) t =
      (.ok (), u)) : u.isDirectoryAt p = true := by
  rw [unlessDirectory_apply] at h
  split at h
  · rename_i hdir
    cases h
    exact hdir
  · cases h

theorem isDirectoryAt_of_makeDirectoryUnlessThere
    (h : makeDirectoryUnlessThere p t = (.ok (), u)) : u.isDirectoryAt p = true := by
  rcases tryCatch_ok_iff.mp h with h | ⟨e, s, -, h⟩
  · exact isDirectoryAt_of_makeDirectory h
  · exact isDirectoryAt_of_unlessDirectory h

theorem isDirectoryAt_of_makeDirectories (h : makeDirectories root t = (.ok (), u)) :
    root = [] ∨ u.isDirectoryAt root = true := by
  by_cases hroot : root = []
  · exact .inl hroot
  refine .inr ?_
  have hempty : root.isEmpty = false := by simpa using hroot
  unfold makeDirectories at h
  cases hparents : ancestors root with
  | nil =>
      rw [hparents, makeDirectoriesBelow] at h
      simp only [hempty, Bool.false_eq_true, if_false] at h
      exact isDirectoryAt_of_makeDirectoryUnlessThere h
  | cons q parents =>
      rw [hparents, makeDirectoriesBelow] at h
      simp only [hempty, Bool.false_eq_true, if_false] at h
      rcases tryCatch_ok_iff.mp h with h | ⟨e, s, -, h⟩
      · exact isDirectoryAt_of_makeDirectory h
      split at h
      · obtain ⟨_, s', -, h⟩ := bind_ok_iff.mp h
        exact isDirectoryAt_of_makeDirectoryUnlessThere h
      · exact isDirectoryAt_of_unlessDirectory h

theorem leadsTo_of_isDirectoryAt (hroot : root ≠ []) (h : t.isDirectoryAt root = true) :
    ∃ k ≤ linkLimit, ∃ d, t.LeadsTo k root d ∧ t.at? d = some .directory := by
  obtain ⟨d, hexisting, hd⟩ := status_ok_iff.mp (isDirectoryAt_iff.mp h)
  obtain ⟨i, hi, hl⟩ := (existing_ok_iff.mp hexisting).2.leads hd
  obtain ⟨ys, hys, hnames⟩ := names_eq_dirNames_append hroot
  rw [hnames] at hl
  exact ⟨i, hi, d, hl.of_append_empty hys, hd⟩

theorem makeDirectories_of_isDirectoryAt (h : root = [] ∨ t.isDirectoryAt root = true) :
    makeDirectories root t = (.ok (), t) := by
  by_cases hroot : root = []
  · subst hroot
    rfl
  have hdir := h.resolve_left hroot
  obtain ⟨k, -, d, hl, -⟩ := leadsTo_of_isDirectoryAt hroot hdir
  obtain ⟨e, he, hmake, -⟩ := makeDirectory_agree (.refl t) hl hroot
  rw [makeDirectories_of_error hroot he hmake, if_pos hdir]

theorem Within.outlined (w : t.Within u) : t.Outlined u := by
  refine ⟨w.here, fun l => ?_⟩
  cases he : t.at? l with
  | none => exact .inl plain_none
  | some e => exact .inr (w.keeps l e he)

/-- Whether a path leads to a directory is the same in all trees that have the way to it. -/
theorem isDirectoryAt_of_within (hl : base.LeadsTo k root d) (hd : base.at? d = some .directory)
    (hroot : root ≠ []) (w : base.Within t) (w' : base.Within u)
    (h : t.isDirectoryAt root = true) : u.isDirectoryAt root = true := by
  have same : ∀ v : FileTree, base.Within v → v.isDirectoryAt root = base.isDirectoryAt root :=
    fun v w => isDirectoryAt_agree w.outlined hl ((w.keeps d _ hd).trans hd.symm) hroot
  rw [same u w', ← same t w, h]

end FileTree
end Horizon
