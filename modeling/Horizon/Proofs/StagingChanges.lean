import Horizon.Proofs.StagedFiles

/-!
What staging changes, whether it succeeds or not. Besides the directories that are made for it,
only files and links that stand in the query's directory by the file name of a source give way.
What is found without passing through one of these is found as it was.
-/

namespace Horizon
namespace Staging

open FileTree Horizon.Path FileOp

variable {t u v base : FileTree} {root p s : Path} {sources : List Path} {name : Text}
  {d : Location} {l : Location} {i : Nat}

theorem allOrNothing_link (s p : Path) : AllOrNothing (link s p) :=
  .after_ask fun _ => allOrNothing_change _

theorem allOrNothing_copy (s p : Path) : AllOrNothing (copy s p) :=
  .after_ask fun file => (allOrNothing_openForWriting p file.2).bind_of_ok fun _ _ => ⟨(), rfl⟩

/-! What clearing takes away. -/

theorem allOrNothing_clear (p : Path) : AllOrNothing (clear p) := by
  intro t u e h
  rw [clear_apply] at h
  split at h
  · cases h
    rfl
  · exact allOrNothing_change _ _ _ _ h
  · cases h
  · cases h
    rfl

/-- The system takes the path of a name in a directory, and looks for the name in `d`. -/
def Reaches (t : FileTree) (root : Path) (name : Text) (d : Location) : Prop :=
  Accepted root name ∧ ∃ i ≤ linkLimit, t.LeadsTo i root d

/-- Only a file or a link is taken away, from the directory that the path leads to. -/
theorem clear_changes (hn : IsName name) (h : clear (join root name) t = (.ok (), u)) :
    u = t ∨ ∃ d, Reaches t root name d ∧ t.at? (name :: d) ≠ some .directory ∧
      t.Sets (name :: d) none u := by
  rcases clear_ok_cases h with ⟨-, rfl⟩ | ⟨e, hstatus, hdir, hremove⟩
  · exact .inl rfl
  · obtain ⟨l, hexisting, hset⟩ := remove_ok hremove
    obtain ⟨ha, i, j, d, hij, hl, hr⟩ :=
      of_locate_join hn (existing_ok_iff_locate.mp hexisting)
    have hplace := (resolves_entry_iff ha.toStorable).mp hr
    obtain rfl : l = name :: d := by
      unfold lookup at hplace
      split at hplace <;> cases hplace
      rfl
    obtain ⟨_, hexisting', he⟩ := status_ok_iff.mp hstatus
    obtain rfl := Except.ok.inj (hexisting.symm.trans hexisting')
    refine .inr ⟨d, ⟨ha, i, by omega, hl⟩, fun h => hdir ?_, hset⟩
    exact Option.some.inj (he.symm.trans h)

/-! What may give way to the sources. -/

/-- A location in the directory that `root` leads to, by the file name of one of the sources,
where no directory stands. -/
def GivesWay (t : FileTree) (root : Path) (sources : List Path) (l : Location) : Prop :=
  t.at? l ≠ some .directory ∧ ∃ s ∈ sources, ∃ name d, fileName? s = some name ∧
    Reaches t root name d ∧ l = name :: d

theorem GivesWay.mono {xs ys : List Path} (h : GivesWay t root xs l) (hxy : xs ⊆ ys) :
    GivesWay t root ys l := by
  obtain ⟨hdir, s, hs, rest⟩ := h
  exact ⟨hdir, s, hxy hs, rest⟩

/-- From `t` to `u` nothing changes but what may give way to the sources. -/
structure Replaces (t : FileTree) (root : Path) (sources : List Path) (u : FileTree) : Prop where
  here : u.here = t.here
  at?_eq : ∀ l, u.at? l = t.at? l ∨ GivesWay t root sources l

theorem Replaces.refl (t : FileTree) (root : Path) (sources : List Path) :
    Replaces t root sources t := ⟨rfl, fun _ => .inl rfl⟩

theorem Replaces.mono {xs ys : List Path} (h : Replaces t root xs u) (hxy : xs ⊆ ys) :
    Replaces t root ys u :=
  ⟨h.here, fun l => (h.at?_eq l).imp_right fun hway => hway.mono hxy⟩

theorem replaces_of_sets {o : Option Entry} (hname : fileName? s = some name)
    (hr : Reaches t root name d) (hdir : t.at? (name :: d) ≠ some .directory)
    (hset : t.Sets (name :: d) o u) : Replaces t root [s] u := by
  refine ⟨hset.here, fun m => ?_⟩
  by_cases hm : m = name :: d
  · subst hm
    exact .inr ⟨hdir, s, List.mem_cons_self, name, d, hname, hr, rfl⟩
  · exact .inl (hset.at?_of_ne hm)

/-- The directory of the path is still where it was. -/
def Stays (t : FileTree) (root : Path) (u : FileTree) : Prop :=
  ∀ name d, Reaches u root name d → Reaches t root name d

theorem Stays.trans (h : Stays t root u) (h' : Stays u root v) : Stays t root v :=
  fun name d hr => h name d (h' name d hr)

/-- What may give way afterwards might have given way before. -/
theorem Replaces.givesWay {xs ys : List Path} (h : Replaces t root xs u) (hstay : Stays t root u)
    (hway : GivesWay u root ys l) : GivesWay t root (xs ++ ys) l := by
  rcases h.at?_eq l with hl | hway'
  · obtain ⟨hdir, s, hs, name, d, hname, hr, rfl⟩ := hway
    exact ⟨hl ▸ hdir, s, List.mem_append_right xs hs, name, d, hname, hstay name d hr, rfl⟩
  · exact hway'.mono (List.subset_append_left xs ys)

theorem Replaces.trans {xs ys : List Path} (h : Replaces t root xs u) (hstay : Stays t root u)
    (h' : Replaces u root ys v) : Replaces t root (xs ++ ys) v := by
  refine ⟨h'.here.trans h.here, fun l => ?_⟩
  rcases h'.at?_eq l with hl' | hway
  · exact (h.at?_eq l).imp hl'.trans fun hway => hway.mono (List.subset_append_left xs ys)
  · exact .inr (h.givesWay hstay hway)

/-- A part of the tree that lacks what may give way is still there. -/
theorem Replaces.within (h : Replaces t root sources u) (w : base.Within t)
    (free : ∀ l, GivesWay t root sources l → base.at? l = none) : base.Within u := by
  refine ⟨h.here.trans w.here, fun l e he => ?_⟩
  rcases h.at?_eq l with hl | hway
  · exact hl.trans (w.keeps l e he)
  · simp [free l hway] at he

/-! One file, and all the files. -/

variable {put : Path → Path → FileOp Unit} {image : FileTree → Path → Entry → Prop}

theorem place_changes (hput : Puts put image) (hall : ∀ s p, AllOrNothing (put s p))
    {r : Except FileError Path} (h : place put root s t = (r, v)) :
    Replaces t root [s] v ∧ (r.isOk → Stays t root v) := by
  cases r with
  | error e =>
      refine ⟨?_, nofun⟩
      rcases bind_error_iff.mp h with hask | ⟨p, _, hask, h⟩
      · obtain rfl := allOrNothing_ask _ _ _ _ hask
        exact .refl ..
      obtain ⟨htarget, rfl⟩ := ask_ok_iff.mp hask
      obtain ⟨name, hname, rfl⟩ := target_ok_iff.mp htarget
      rcases bind_error_iff.mp h with hclear | ⟨_, u, hclear, h⟩
      · obtain rfl := allOrNothing_clear _ _ _ _ hclear
        exact .refl ..
      rcases bind_error_iff.mp h with hmade | ⟨_, _, -, h⟩
      · obtain rfl := hall _ _ _ _ _ hmade
        rcases clear_changes (isName_of_fileName? hname) hclear with rfl | ⟨d, hr, hdir, hset⟩
        · exact .refl ..
        · exact replaces_of_sets hname hr hdir hset
      · cases h
  | ok p =>
      obtain ⟨name, d, e, u, rfl, hplaced⟩ := placed_of_place hput h
      obtain ⟨k, hk, hl⟩ := hplaced.leads_before
      refine ⟨replaces_of_sets hplaced.named ⟨hplaced.accepted, k, hk, hl⟩ hplaced.not_directory
        (hplaced.cleared.trans hplaced.entered), ?_⟩
      rintro - m d' ⟨ha, j, -, hj⟩
      exact ⟨ha, k, hk, hplaced.eq_of_leads hj ▸ hl⟩

theorem placeAll_changes (hput : Puts put image) (hall : ∀ s p, AllOrNothing (put s p))
    {r : Except FileError (List Path)} (h : placeAll put root sources t = (r, v)) :
    Replaces t root sources v ∧ (r.isOk → Stays t root v) := by
  induction sources generalizing t r with
  | nil =>
      cases h
      exact ⟨.refl .., fun _ _ _ hr => hr⟩
  | cons s sources ih =>
      cases r with
      | error e =>
          refine ⟨?_, nofun⟩
          rcases bind_error_iff.mp h with hplace | ⟨p, u, hplace, h⟩
          · exact (place_changes hput hall hplace).1.mono (by simp)
          rcases bind_error_iff.mp h with hrest | ⟨_, _, -, h⟩
          · obtain ⟨hfirst, hstay⟩ := place_changes hput hall hplace
            exact hfirst.trans (hstay rfl) (ih hrest).1
          · cases h
      | ok ps =>
          obtain ⟨p, qs, u, hplace, hrest, rfl⟩ := exists_of_placeAll_cons h
          obtain ⟨hfirst, hstay⟩ := place_changes hput hall hplace
          obtain ⟨hnext, hstay'⟩ := ih hrest
          exact ⟨hfirst.trans (hstay rfl) hnext, fun _ => (hstay rfl).trans (hstay' rfl)⟩

/-- The tree in which the directory for staged files has been made, as far as it can be. -/
def prepared (t : FileTree) (root : Path) : FileTree := (makeDirectories root t).2

theorem stage_nil (t : FileTree) (root : Path) : (stage root [] [] t).2 = prepared t root := by
  unfold prepared stage
  rw [bind_apply]
  rcases makeDirectories root t with ⟨_ | _, u⟩ <;> rfl

/-- Whatever comes of staging, what it changes in the prepared tree may give way to the
sources. -/
theorem stage_changes (t : FileTree) (root : Path) (links copies : List Path) :
    Replaces (prepared t root) root (links ++ copies) (stage root links copies t).2 := by
  unfold prepared
  rcases hmake : makeDirectories root t with ⟨e | a, t'⟩
  · have h : stage root links copies t = (.error e, t') :=
      bind_error_iff.mpr (.inl hmake)
    rw [h]
    exact .refl ..
  rcases hlinks : placeAll link root links t' with ⟨e | ps, u⟩
  · have h : stage root links copies t = (.error e, u) :=
      bind_error_iff.mpr (.inr ⟨a, t', hmake, bind_error_iff.mpr (.inl hlinks)⟩)
    rw [h]
    exact (placeAll_changes link_puts allOrNothing_link hlinks).1.mono
      (List.subset_append_left links copies)
  obtain ⟨hfirst, hstay⟩ := placeAll_changes link_puts allOrNothing_link hlinks
  rcases hcopies : placeAll copy root copies u with ⟨e | qs, v⟩
  · have h : stage root links copies t = (.error e, v) :=
      bind_error_iff.mpr (.inr ⟨a, t', hmake,
        bind_error_iff.mpr (.inr ⟨ps, u, hlinks, bind_error_iff.mpr (.inl hcopies)⟩)⟩)
    rw [h]
    exact hfirst.trans (hstay rfl) (placeAll_changes copy_puts allOrNothing_copy hcopies).1
  · have h : stage root links copies t = (.ok ⟨root, ps ++ qs⟩, v) :=
      bind_ok_iff.mpr ⟨a, t', hmake,
        bind_ok_iff.mpr ⟨ps, u, hlinks, bind_ok_iff.mpr ⟨qs, v, hcopies, rfl⟩⟩⟩
    rw [h]
    exact hfirst.trans (hstay rfl) (placeAll_changes copy_puts allOrNothing_copy hcopies).1

/-- Where the path of the directory leads once everything has been staged, it led before. -/
theorem stays_of_stage {links copies : List Path} {staged : Staged}
    (h : stage root links copies t = (.ok staged, v)) : Stays (prepared t root) root v := by
  obtain ⟨t', u, ps, qs, hmake, hlinks, hcopies, -⟩ := stage_ok h
  obtain ⟨-, hstay⟩ := placeAll_changes link_puts allOrNothing_link hlinks
  obtain ⟨-, hstay'⟩ := placeAll_changes copy_puts allOrNothing_copy hcopies
  rw [prepared, hmake]
  exact (hstay rfl).trans (hstay' rfl)

/-! Sources that are found again. -/

/-- A path leads to a regular file in a part of the tree that has nothing at some locations. -/
def FoundWithout (t : FileTree) (gone : Location → Prop) (p : Path) (file : Bytes × Bool) : Prop :=
  ∃ base : FileTree, base.Within t ∧ (∀ l, gone l → base.at? l = none) ∧
    base.regularFile p = .ok file

theorem Replaces.regularFile {file : Bytes × Bool} (h : Replaces t root sources u)
    (hp : FoundWithout t (GivesWay t root sources) p file) : u.regularFile p = .ok file := by
  obtain ⟨base, w, free, hfile⟩ := hp
  exact regularFile_mono (h.within w free) hfile

theorem clear_of_locate {e : Entry} (h : t.locate .entry p = .ok (t.lookup d name))
    (he : t.at? (name :: d) = some e) (hdir : e ≠ .directory) :
    clear p t = (.ok (), t.erase (name :: d)) := by
  have hexisting := existing_entry_of_locate h
  rw [he, Option.isSome_some, if_pos rfl] at hexisting
  have hstatus : t.status .entry p = .ok e := status_ok_iff.mpr ⟨_, hexisting, he⟩
  have hremove : remove p t = (.ok (), t.erase (name :: d)) := by
    rw [remove, change_ok_iff, hexisting]
    simp only [he]
  rw [clear_apply, hstatus]
  cases e with
  | directory => contradiction
  | file | link | sink | descriptor => exact hremove

theorem clear_of_reaches {e : Entry} (hr : Reaches t root name d)
    (he : t.at? (name :: d) = some e) (hdir : e ≠ .directory) :
    clear (join root name) t = (.ok (), t.erase (name :: d)) := by
  obtain ⟨ha, i, hi, hl⟩ := hr
  exact clear_of_locate (hl.locate_entry hi ha) he hdir

/-- A source that is found once it has been placed was found when it was placed. -/
def Rests (image : FileTree → Path → Entry → Prop) : Prop :=
  ∀ {u v : FileTree} {s : Path} {e : Entry} {l : Location} {file : Bytes × Bool}, image u s e →
    u.at? l = none → u.Sets l (some e) v → v.regularFile s = .ok file → u.regularFile s = .ok file

theorem rests_copyOf : Rests CopyOf := by
  rintro u v s e l file ⟨file', hfile', -⟩ free hset hfile
  have hfile'' := regularFile_mono (hset.within (.refl u) free) hfile'
  rw [hfile', ← hfile'', hfile]

theorem rests_linkTo : Rests LinkTo := by
  rintro u v s e l file ⟨q, hq, rfl⟩ free hset hfile
  obtain ⟨m', hm', he⟩ := status_ok_iff.mp (regularFile_ok_iff.mp hfile)
  obtain ⟨m, hm⟩ := existing_of_canonical (existing_ok_iff.mp hm').1 hq
  obtain rfl := Except.ok.inj ((existing_mono (hset.within (.refl u) free) hm).symm.trans hm')
  -- The link that was made is no file, so the source does not lead to it.
  have hne : m ≠ l := by
    rintro rfl
    simp [hset.at?_self] at he
  rw [hset.at?_of_ne hne] at he
  exact regularFile_ok_iff.mpr (status_ok_iff.mpr ⟨m, hm, he⟩)

theorem exists_put_of_place {r : Except FileError Path} (hname : fileName? s = some name)
    (hclear : clear (join root name) t = (.ok (), u)) (h : place put root s t = (r, v)) :
    ∃ made, put s (join root name) u = (made, v) := by
  have htarget : ask (fun _ => target root s) t = (.ok (join root name), t) :=
    ask_ok_iff.mpr ⟨target_ok_iff.mpr ⟨name, hname, rfl⟩, rfl⟩
  rw [place, bind_apply, htarget] at h
  simp only [bind_apply, hclear] at h
  rcases hmade : put s (join root name) u with ⟨_ | _, w⟩ <;> rw [hmade] at h <;> cases h <;>
    exact ⟨_, rfl⟩

/-- A source is kept when it is placed exactly if it is found without the entry that gives way
to it. -/
theorem place_keeps_iff {file : Bytes × Bool} {r : Except FileError Path} (hput : Puts put image)
    (hall : ∀ s p, AllOrNothing (put s p)) (hrest : Rests image)
    (h : place put root s t = (r, v)) (hfile : t.regularFile s = .ok file) :
    v.regularFile s = .ok file ↔ FoundWithout t (GivesWay t root [s]) s file := by
  refine ⟨fun hv => ?_, (place_changes hput hall h).1.regularFile⟩
  by_cases hway : ∃ name d e, fileName? s = some name ∧ Reaches t root name d ∧
      t.at? (name :: d) = some e ∧ e ≠ .directory
  · obtain ⟨name, d, e, hname, hr, he, hdir⟩ := hway
    have hset : t.Sets (name :: d) none (t.erase (name :: d)) := sets_erase (List.cons_ne_nil name d)
    refine ⟨t.erase (name :: d), hset.within_of_none, ?_, ?_⟩
    · rintro l ⟨-, s', hs', name', d', hname', hr', rfl⟩
      obtain rfl := List.mem_singleton.mp hs'
      obtain rfl := Option.some.inj (hname.symm.trans hname')
      obtain ⟨-, i, -, hl⟩ := hr
      obtain ⟨-, j, -, hl'⟩ := hr'
      rw [← hl.unique hl']
      exact hset.at?_self
    · obtain ⟨made, hmade⟩ := exists_put_of_place hname (clear_of_reaches hr he hdir) h
      cases made with
      | error e => rwa [hall _ _ _ _ _ hmade] at hv
      | ok a =>
          obtain ⟨e, himage, -, k, d', -, hl', hset'⟩ := hput (isName_of_fileName? hname) hmade
          obtain ⟨-, i, -, hl⟩ := hr
          obtain rfl : d' = d := (hl'.mono hset.within_of_none).unique hl
          exact hrest himage hset.at?_self (hset' hset.at?_self) hv
  · refine ⟨t, .refl t, ?_, hfile⟩
    rintro l ⟨hdir, s', hs', name, d, hname, hr, rfl⟩
    obtain rfl := List.mem_singleton.mp hs'
    cases he : t.at? (name :: d) with
    | none => rfl
    | some e => exact absurd ⟨name, d, e, hname, hr, he, fun h => hdir (h ▸ he)⟩ hway

theorem placeAll_singleton (put : Path → Path → FileOp Unit) (root s : Path) (t : FileTree) :
    (placeAll put root [s] t).2 = (place put root s t).2 := by
  rw [placeAll, bind_apply]
  rcases place put root s t with ⟨_ | p, u⟩ <;> rfl

theorem stage_eq_of_made {t' : FileTree} (hmake : makeDirectories root t = (.ok (), t'))
    (links copies : List Path) :
    stage root links copies t =
      (do
        let linked ← placeAll link root links
        let copied ← placeAll copy root copies
        return ⟨root, linked ++ copied⟩ : FileOp Staged) t' := by
  rw [stage, bind_apply, hmake]

/-- Staging keeps every file that is found without what may give way to the sources, whether it
succeeds or not. A single source that has a directory to go to is kept only so. -/
theorem stage_keeps_sources (t : FileTree) (root : Path) (links copies : List Path) :
    (∀ p file, FoundWithout (prepared t root) (GivesWay (prepared t root) root (links ++ copies))
        p file → (stage root links copies t).2.regularFile p = .ok file) ∧
      ∀ s file, links ++ copies = [s] → (makeDirectories root t).1 = .ok () →
        t.regularFile s = .ok file →
        ((stage root links copies t).2.regularFile s = .ok file ↔
          FoundWithout (prepared t root) (GivesWay (prepared t root) root [s]) s file) := by
  refine ⟨fun p file => (stage_changes t root links copies).regularFile, ?_⟩
  intro s file hsources hmade hfile
  have hmake : makeDirectories root t = (.ok (), prepared t root) := Prod.ext hmade rfl
  have hfile' := regularFile_mono (grows_makeDirectories root t) hfile
  rcases List.append_eq_singleton_iff.mp hsources with ⟨rfl, rfl⟩ | ⟨rfl, rfl⟩
  · have hstate : (stage root [] [s] t).2 = (place copy root s (prepared t root)).2 := by
      rw [stage_eq_of_made hmake, ← placeAll_singleton, bind_apply, placeAll, pure_apply]
      simp only [bind_apply]
      rcases placeAll copy root [s] (prepared t root) with ⟨_ | ps, u⟩ <;> rfl
    rw [hstate]
    exact place_keeps_iff copy_puts allOrNothing_copy rests_copyOf rfl hfile'
  · have hstate : (stage root [s] [] t).2 = (place link root s (prepared t root)).2 := by
      rw [stage_eq_of_made hmake, ← placeAll_singleton, bind_apply]
      rcases placeAll link root [s] (prepared t root) with ⟨_ | ps, u⟩ <;> rfl
    rw [hstate]
    exact place_keeps_iff link_puts allOrNothing_link rests_linkTo rfl hfile'

/-- A source in the query's own directory. -/
def ownSource : FileTree := ofEntries
  [(["q".toList], .directory), (["x".toList, "q".toList], .file [49] false)]

/-- A source, and an older file in the query's directory that has its name. -/
def olderFile : FileTree := ofEntries
  [(["a".toList], .directory), (["x".toList, "a".toList], .file [50] true),
    (["q".toList], .directory), (["x".toList, "q".toList], .file [49] false)]

/-- The call fails at its second source, and the first one is still there. A source that lies
in the directory itself is not found without what gives way to it. -/
theorem stage_olderFile :
    (stage "/q".toList ["/a/x".toList] ["/a/y".toList] olderFile).1 = .error .notFound ∧
    (stage "/q".toList ["/a/x".toList] ["/a/y".toList] olderFile).2.regularFile "/a/x".toList =
      .ok ([50], true) ∧
    ¬ FoundWithout (prepared ownSource "/q".toList)
      (GivesWay (prepared ownSource "/q".toList) "/q".toList ["/q/x".toList]) "/q/x".toList
      ([49], false) := by
  have proper : Storable "q".toList := ⟨⟨by decide, by decide, by decide, by decide⟩, by decide⟩
  have leads : olderFile.LeadsTo 0 "/q".toList ["q".toList] :=
    .idle (.inl rfl) (.down proper rfl .here)
  have hset := sets_erase (t := olderFile) (List.cons_ne_nil "x".toList ["q".toList])
  have found : FoundWithout (prepared olderFile "/q".toList)
      (GivesWay (prepared olderFile "/q".toList) "/q".toList ["/a/x".toList, "/a/y".toList])
      "/a/x".toList ([50], true) := by
    refine ⟨olderFile.erase ["x".toList, "q".toList], hset.within_of_none, ?_, rfl⟩
    rintro l ⟨-, s, hs, name, d, hname, ⟨-, i, -, hl⟩, rfl⟩
    obtain rfl := leads.unique hl
    simp only [List.mem_cons, List.not_mem_nil, or_false] at hs
    rcases hs with rfl | rfl <;> cases hname <;> rfl
  obtain ⟨kept, -⟩ :=
    stage_keeps_sources olderFile "/q".toList ["/a/x".toList] ["/a/y".toList]
  obtain ⟨-, single⟩ := stage_keeps_sources ownSource "/q".toList ["/q/x".toList] []
  refine ⟨rfl, kept _ _ found, fun h => ?_⟩
  cases (single "/q/x".toList ([49], false) rfl rfl rfl).mpr h

/-- It gives way to itself. -/
theorem stage_onto_itself :
    ownSource.regularFile "/q/x".toList = .ok ([49], false) ∧
    (stage "/q".toList ["/q/x".toList] [] ownSource).1 = .error .notFound ∧
    (stage "/q".toList ["/q/x".toList] [] ownSource).2.regularFile "/q/x".toList =
      .error .notFound := ⟨rfl, rfl, rfl⟩

end Staging
end Horizon
