import Horizon.Proofs.FileOperations
import Horizon.Staging

/-!
What staged files read as. Every source is placed by its file name alone, so of the sources with
one name only the last is there in the end, and each path that was given out for the name reads
as that one. The directory's path leads to the same location all the time, and a source that is
found without the entries that give way is found at every step.
-/

namespace Horizon
namespace FileTree

open Horizon.Path

variable {t u : FileTree} {n name : Text} {d : Location} {root : Path} {i : Nat} {e : Entry}
  {content : Bytes}

/-- The tree without what the sources replace in a directory. -/
def cleared (t : FileTree) (d : Location) (sources : List Path) : FileTree :=
  (sources.filterMap fileName?).foldl (fun t n => t.erase (n :: d)) t

theorem foldl_erase_within (names : List Text) (t : FileTree) :
    (names.foldl (fun t n => t.erase (n :: d)) t).Within t ∧
      ∀ n ∈ names, (names.foldl (fun t n => t.erase (n :: d)) t).at? (n :: d) = none := by
  induction names generalizing t with
  | nil => exact ⟨.refl t, nofun⟩
  | cons n names ih =>
      obtain ⟨w, free⟩ := ih (t.erase (n :: d))
      have herase : t.Sets (n :: d) none (t.erase (n :: d)) := sets_erase (List.cons_ne_nil n d)
      refine ⟨w.trans herase.within_of_none, ?_⟩
      intro m hm
      rcases List.mem_cons.mp hm with rfl | hm
      · exact w.at?_eq_none herase.at?_self
      · exact free m hm

theorem cleared_within (t : FileTree) (d : Location) (sources : List Path) :
    (t.cleared d sources).Within t :=
  (foldl_erase_within _ t).1

theorem at?_cleared {sources : List Path} {s : Path} (hs : s ∈ sources)
    (hn : fileName? s = some name) : (t.cleared d sources).at? (name :: d) = none :=
  (foldl_erase_within _ t).2 name (List.mem_filterMap.mpr ⟨s, hs, hn⟩)

/-- The working directory and the sources do not depend on what the sources replace. -/
structure Apart (t : FileTree) (d : Location) (sources : List Path) : Prop where
  here : (t.cleared d sources).Opens (t.cleared d sources).here
  found : ∀ s ∈ sources, ∃ file, (t.cleared d sources).regularFile s = .ok file

/-- An entry that reads as some content, as a file of its own or as a link to one. -/
inductive Shows (t : FileTree) (content : Bytes) : Entry → Prop
  | file {mode : Bool} : Shows t content (.file content mode)
  | link {n : Text} {d : Location} {mode : Bool} : Storable n → t.Opens d →
      t.at? (n :: d) = some (.file content mode) → Shows t content (.link (pathOf (n :: d)))

theorem Shows.mono (w : t.Within u) (h : t.Shows content e) : u.Shows content e := by
  cases h with
  | file => exact .file
  | link hs hd he => exact .link hs (hd.mono w) (w.keeps _ _ he)

/-- What a path and a name in its directory read as. The link that the name may stand for is
one more to be followed. -/
theorem LeadsTo.readBytes_join (h : t.LeadsTo i root d) (hi : i < linkLimit)
    (ha : Accepted root name) (he : t.at? (name :: d) = some e) (hs : t.Shows content e) :
    t.readBytes (join root name) = .ok content := by
  have found : ∃ l mode, t.Resolves .target (linkLimit - i) d [name] (.found l) ∧
      t.at? l = some (.file content mode) := by
    cases hs with
    | @file mode => exact ⟨_, mode, .entry ha.toStorable he nofun nofun, he⟩
    | @link n d' mode hn hd' he' =>
        obtain ⟨j, hj⟩ := Nat.exists_eq_succ_of_ne_zero (Nat.sub_ne_zero_of_lt hi)
        refine ⟨n :: d', mode, ?_, he'⟩
        rw [hj]
        refine .follow ha.toStorable Aim.allows_nil he nofun ?_
        rw [origin, isAbsolute_pathOf, if_pos rfl, List.append_nil]
        exact hd'.resolves_pathOf hn he' nofun nofun
  obtain ⟨l, mode, hr, hl⟩ := found
  have hstatus : t.status .target (join root name) = .ok (.file content mode) := by
    rw [status, existing, h.locate_join (Nat.le_of_lt hi) ha hr]
    simp [hl]
  rw [readBytes, hstatus]

end FileTree

namespace Staging

open FileTree Horizon.Path FileOp

variable {t u v base : FileTree} {root p s : Path} {sources : List Path} {name : Text}
  {d : Location} {i : Nat}

/-! One file. -/

theorem target_ok_iff :
    target root s = .ok p ↔ ∃ name, fileName? s = some name ∧ join root name = p := by
  unfold target
  split <;> simp_all

/-- What the entry is decides whether it is removed. -/
theorem clear_apply (p : Path) (t : FileTree) :
    clear p t =
      match t.status .entry p with
      | .ok .directory => (.error (.targetIsDirectory p), t)
      | .ok _ => remove p t
      | .error .notFound => (.ok (), t)
      | .error e => (.error e, t) := by
  have hget : (get : FileOp FileTree) t = (.ok t, t) := rfl
  unfold clear
  rw [bind_apply, hget]
  dsimp only
  rcases t.status .entry p with e | e <;> cases e <;> rfl

theorem clear_ok_cases (h : clear p t = (.ok (), u)) :
    t.status .entry p = .error .notFound ∧ u = t ∨
      ∃ e, t.status .entry p = .ok e ∧ e ≠ .directory ∧ remove p t = (.ok (), u) := by
  rw [clear_apply] at h
  split at h
  · cases h
  · rename_i e hdir he
    exact .inr ⟨e, he, hdir, h⟩
  · rename_i he
    cases h
    exact .inl ⟨he, rfl⟩
  · cases h

theorem clear_ok (hl : u.LeadsTo i root d) (hi : i ≤ linkLimit) (ha : Accepted root name)
    (h : clear (join root name) t = (.ok (), u)) : t.Sets (name :: d) none u := by
  rcases clear_ok_cases h with ⟨hstatus, rfl⟩ | ⟨_, -, -, hremove⟩
  · rw [hl.status_entry hi ha] at hstatus
    cases he : u.at? (name :: d) with
    | none => exact sets_self he
    | some e => simp [he] at hstatus
  · obtain ⟨l, hexisting, hset⟩ := remove_ok hremove
    rw [(hl.mono hset.within_of_none).existing_entry hi ha] at hexisting
    split at hexisting
    · cases hexisting
      exact hset
    · cases hexisting

/-- What an operation makes of a source and a path: one entry, as the tree has the source. -/
def Puts (put : Path → Path → FileOp Unit) (image : FileTree → Path → Entry → Prop) : Prop :=
  ∀ {t u : FileTree} {root s : Path} {name : Text}, IsName name →
    put s (join root name) t = (.ok (), u) → ∃ e, image t s e ∧ t.Enters root name e u

def LinkTo (t : FileTree) (s : Path) (e : Entry) : Prop := ∃ q, t.canonical s = .ok q ∧ e = .link q

def CopyOf (t : FileTree) (s : Path) (e : Entry) : Prop :=
  ∃ file, t.regularFile s = .ok file ∧ e = .file file.1 file.2

theorem link_puts : Puts link LinkTo := by
  intro t u root s name hn h
  obtain ⟨q, t', hask, hmake⟩ := bind_ok_iff.mp h
  obtain ⟨hq, rfl⟩ := ask_ok_iff.mp hask
  exact ⟨.link q, ⟨q, hq, rfl⟩, makeLink_ok hn hmake⟩

theorem copy_puts : Puts copy CopyOf := by
  intro t u root s name hn h
  obtain ⟨file, hfile, henters⟩ := copy_ok hn h
  exact ⟨_, ⟨file, hfile, rfl⟩, henters⟩

variable {put : Path → Path → FileOp Unit} {image : FileTree → Path → Entry → Prop}

/-- A file has been placed in `v`, from a tree `u` where nothing stands in its way any more. -/
structure Placed (put : Path → Path → FileOp Unit) (image : FileTree → Path → Entry → Prop)
    (t : FileTree) (root s : Path) (name : Text) (d : Location) (e : Entry) (u v : FileTree) :
    Prop where
  named : fileName? s = some name
  accepted : Accepted root name
  leads : ∃ k ≤ linkLimit, u.LeadsTo k root d
  not_directory : t.at? (name :: d) ≠ some .directory
  cleared : t.Sets (name :: d) none u
  made : put s (join root name) u = (.ok (), v)
  image : image u s e
  entered : u.Sets (name :: d) (some e) v

theorem placed_of_place (hput : Puts put image) (h : place put root s t = (.ok p, v)) :
    ∃ name d e u, p = join root name ∧ Placed put image t root s name d e u v := by
  obtain ⟨p', _, hask, h⟩ := bind_ok_iff.mp h
  obtain ⟨htarget, rfl⟩ := ask_ok_iff.mp hask
  obtain ⟨name, hname, rfl⟩ := target_ok_iff.mp htarget
  obtain ⟨_, u, hclear, h⟩ := bind_ok_iff.mp h
  obtain ⟨_, v', hmade, h⟩ := bind_ok_iff.mp h
  cases h
  obtain ⟨e, himage, ha, k, d, hk, hl, hset⟩ := hput (isName_of_fileName? hname) hmade
  have hcleared := clear_ok hl hk ha hclear
  have hdir : t.at? (name :: d) ≠ some .directory := by
    intro he
    have hstatus := (hl.mono hcleared.within_of_none).status_entry hk ha
    rw [he, Option.elim_some] at hstatus
    rcases clear_ok_cases hclear with ⟨hnone, -⟩ | ⟨_, hsome, hne, -⟩
    · cases hstatus.symm.trans hnone
    · exact hne (Except.ok.inj (hsome.symm.trans hstatus))
  exact ⟨name, d, e, u, rfl, hname, ha, ⟨k, hk, hl⟩, hdir, hcleared, hmade, himage,
    hset hcleared.at?_self⟩

section
variable {u : FileTree} {e : Entry}

theorem Placed.within (h : Placed put image t root s name d e u v) : u.Within v :=
  h.entered.within (.refl u) h.cleared.at?_self

/-- The directory is where it was, and it was there without the entry. -/
theorem Placed.leads_before (h : Placed put image t root s name d e u v) :
    ∃ k ≤ linkLimit, t.LeadsTo k root d := by
  obtain ⟨k, hk, hl⟩ := h.leads
  exact ⟨k, hk, hl.mono h.cleared.within_of_none⟩

theorem Placed.eq_of_leads_before {d' : Location} (h : Placed put image t root s name d e u v)
    (hl : t.LeadsTo i root d') : d = d' := by
  obtain ⟨k, -, hl'⟩ := h.leads_before
  exact hl'.unique hl

theorem Placed.eq_of_leads {d' : Location} (h : Placed put image t root s name d e u v)
    (hl : v.LeadsTo i root d') : d = d' := by
  obtain ⟨k, -, hl'⟩ := h.leads
  exact (hl'.mono h.within).unique hl

end

/-! All the files. -/

/-- The last of the sources that have a file name. -/
def lastNamed (sources : List Path) (name : Text) : Option Path :=
  sources.reverse.find? fun s => fileName? s = some name

theorem lastNamed_append (xs ys : List Path) (name : Text) :
    lastNamed (xs ++ ys) name = (lastNamed ys name).or (lastNamed xs name) := by
  simp [lastNamed, List.find?_append]

/-- A name in the directory stands for what `base` has at the path of the source. -/
def Stands (base u : FileTree) (root : Path) (d : Location) (name : Text) (s : Path) : Prop :=
  Accepted root name ∧ ∃ file e, base.regularFile s = .ok file ∧ u.at? (name :: d) = some e ∧
    base.Shows file.1 e

/-- What placing the sources one after another does to the names in the directory. -/
structure Fills (base t : FileTree) (root : Path) (d : Location) (sources : List Path)
    (u : FileTree) : Prop where
  last : ∀ name s, lastNamed sources name = some s → Stands base u root d name s
  rest : ∀ name, lastNamed sources name = none → u.at? (name :: d) = t.at? (name :: d)

theorem fills_singleton {e : Entry} {file : Bytes × Bool} (hname : fileName? s = some name)
    (ha : Accepted root name) (hfile : base.regularFile s = .ok file)
    (hset : t.Sets (name :: d) (some e) v) (hshows : base.Shows file.1 e) :
    Fills base t root d [s] v := by
  constructor
  · intro m s' hs'
    obtain ⟨hm, rfl⟩ : some name = some m ∧ s = s' := by simpa [lastNamed, hname] using hs'
    cases hm
    exact ⟨ha, file, e, hfile, hset.at?_self, hshows⟩
  · intro m hm
    have hne : name ≠ m := by simpa [lastNamed, hname] using hm
    exact hset.at?_of_ne (by simpa using hne.symm)

theorem Fills.append {xs ys : List Path} (h : Fills base t root d xs u)
    (h' : Fills base u root d ys v) : Fills base t root d (xs ++ ys) v := by
  constructor
  · intro name s hs
    rw [lastNamed_append] at hs
    cases hys : lastNamed ys name with
    | some s' =>
        rw [hys, Option.some_or, Option.some.injEq] at hs
        exact hs ▸ h'.last name s' hys
    | none =>
        rw [hys, Option.none_or] at hs
        obtain ⟨ha, file, e, hfile, he, hshows⟩ := h.last name s hs
        exact ⟨ha, file, e, hfile, (h'.rest name hys).trans he, hshows⟩
  · intro name hnone
    rw [lastNamed_append, Option.or_eq_none_iff] at hnone
    rw [h'.rest name hnone.1, h.rest name hnone.2]

/-- What an operation makes of a source that `base` has reads as the source does in `base`. -/
def Images (base : FileTree) (image : FileTree → Path → Entry → Prop) : Prop :=
  ∀ {u : FileTree} {s : Path} {e : Entry} {file : Bytes × Bool}, base.Within u →
    base.regularFile s = .ok file → image u s e → base.Shows file.1 e

theorem images_copyOf (base : FileTree) : Images base CopyOf := by
  rintro u s e file w hfile ⟨file', hfile', rfl⟩
  obtain rfl := Except.ok.inj ((regularFile_mono w hfile).symm.trans hfile')
  exact .file

theorem images_linkTo (here : base.Opens base.here) : Images base LinkTo := by
  rintro u s e file w hfile ⟨q, hq, rfl⟩
  obtain ⟨l, hl, he⟩ := status_ok_iff.mp (regularFile_ok_iff.mp hfile)
  obtain rfl := canonical_of_existing (existing_mono w hl) hq
  have hstart : base.Opens (base.start s) := by
    unfold start
    split
    · trivial
    · exact here
  obtain rfl | ⟨n, d, rfl, hn, hd⟩ := (existing_ok_iff.mp hl).2.opens hstart
  · simp [at?] at he
  · exact .link hn hd he

/-- Files that have all been placed were placed one after the other. -/
theorem exists_of_placeAll_cons {s : Path} {ps : List Path}
    (h : placeAll put root (s :: sources) t = (.ok ps, v)) :
    ∃ p qs u, place put root s t = (.ok p, u) ∧ placeAll put root sources u = (.ok qs, v) ∧
      p :: qs = ps := by
  obtain ⟨p, u, hplace, h⟩ := bind_ok_iff.mp h
  obtain ⟨qs, v', hrest, h⟩ := bind_ok_iff.mp h
  cases h
  exact ⟨p, qs, u, hplace, hrest, rfl⟩

/-- If the directory's path leads to a location in the end, it leads there at every step, and
the names in the directory are filled from the sources. -/
theorem placeAll_ok {ps : List Path} (hput : Puts put image) (himage : Images base image)
    (free : ∀ s ∈ sources, ∀ name, fileName? s = some name → base.at? (name :: d) = none)
    (found : ∀ s ∈ sources, ∃ file, base.regularFile s = .ok file)
    (hi : i ≤ linkLimit) (hl : v.LeadsTo i root d)
    (h : placeAll put root sources t = (.ok ps, v)) :
    (∃ k ≤ linkLimit, t.LeadsTo k root d) ∧ sources.map (target root) = ps.map .ok ∧
      (base.Within t → base.Within v ∧ Fills base t root d sources v) := by
  induction sources generalizing t ps with
  | nil =>
      cases h
      exact ⟨⟨i, hi, hl⟩, rfl, fun w => ⟨w, nofun, fun _ _ => rfl⟩⟩
  | cons s sources ih =>
      obtain ⟨p, qs, t', hplace, hrest, rfl⟩ := exists_of_placeAll_cons h
      rw [List.forall_mem_cons] at free found
      obtain ⟨⟨k, hk, hl'⟩, hmap, hfills⟩ := ih free.2 found.2 hrest
      obtain ⟨name, d', e, u, rfl, hplaced⟩ := placed_of_place hput hplace
      obtain rfl := hplaced.eq_of_leads hl'
      obtain ⟨file, hfile⟩ := found.1
      have hfree := free.1 name hplaced.named
      refine ⟨hplaced.leads_before, ?_, fun w => ?_⟩
      · simp [target, hplaced.named, hmap]
      · have w' : base.Within u := hplaced.cleared.within w hfree
        have first : Fills base t root d' [s] t' :=
          fills_singleton hplaced.named hplaced.accepted hfile
            (hplaced.cleared.trans hplaced.entered) (himage w' hfile hplaced.image)
        obtain ⟨w'', hlast⟩ := hfills (hplaced.entered.within w' hfree)
        exact ⟨w'', first.append hlast⟩

theorem stage_ok {links copies : List Path} {staged : Staged}
    (h : stage root links copies t = (.ok staged, v)) :
    ∃ t' u ps qs, makeDirectories root t = (.ok (), t') ∧
      placeAll link root links t' = (.ok ps, u) ∧ placeAll copy root copies u = (.ok qs, v) ∧
      staged = ⟨root, ps ++ qs⟩ := by
  obtain ⟨_, t', hmake, h⟩ := bind_ok_iff.mp h
  obtain ⟨ps, u, hlinks, h⟩ := bind_ok_iff.mp h
  obtain ⟨qs, v', hcopies, h⟩ := bind_ok_iff.mp h
  cases h
  exact ⟨t', u, ps, qs, hmake, hlinks, hcopies, rfl⟩

theorem path_of_stage {links copies : List Path} {staged : Staged}
    (h : stage root links copies t = (.ok staged, v)) : staged.path = root := by
  obtain ⟨_, _, _, _, _, _, _, rfl⟩ := stage_ok h
  rfl

/-- The source that is there in the end by the file name of `s`. -/
def namesake (sources : List Path) (s : Path) : Path :=
  (sources.reverse.find? fun s' => fileName? s' = fileName? s).getD s

theorem find?_namesake (hs : s ∈ sources) :
    sources.reverse.find? (fun s' => fileName? s' = fileName? s) = some (namesake sources s) := by
  have hsome : (sources.reverse.find? fun s' => fileName? s' = fileName? s).isSome :=
    List.find?_isSome.mpr ⟨s, List.mem_reverse.mpr hs, by simp⟩
  obtain ⟨s', hs'⟩ := Option.isSome_iff_exists.mp hsome
  rw [namesake, hs', Option.getD_some]

theorem lastNamed_namesake (hs : s ∈ sources) (hname : fileName? s = some name) :
    lastNamed sources name = some (namesake sources s) := by
  rw [lastNamed, ← hname]
  exact find?_namesake hs

/-- Each path that is given out for a source reads as the last source of that name. -/
theorem Fills.readBytes {p : Path} (hfills : Fills base t root d sources v) (w : base.Within v)
    (hi : i < linkLimit) (hl : v.LeadsTo i root d) (w' : base.Within u) (hs : s ∈ sources)
    (hp : target root s = .ok p) : v.readBytes p = u.readBytes (namesake sources s) := by
  obtain ⟨name, hname, rfl⟩ := target_ok_iff.mp hp
  obtain ⟨ha, file, e, hfile, he, hshows⟩ := hfills.last name _ (lastNamed_namesake hs hname)
  rw [hl.readBytes_join hi ha he (hshows.mono w),
    readBytes_of_regularFile (regularFile_mono w' hfile)]

theorem map_eq_map_of_ok {α β γ ε : Type} {f : α → Except ε β} {g : β → γ} {h : α → γ}
    {xs : List α} {ys : List β} (hxy : xs.map f = ys.map .ok)
    (heq : ∀ x ∈ xs, ∀ y, f x = .ok y → g y = h x) : ys.map g = xs.map h := by
  induction xs generalizing ys with
  | nil =>
      cases ys with
      | nil => rfl
      | cons y ys => simp at hxy
  | cons x xs ih =>
      cases ys with
      | nil => simp at hxy
      | cons y ys =>
          obtain ⟨hx, hxs⟩ := List.cons_eq_cons.mp hxy
          rw [List.map_cons, List.map_cons, heq x List.mem_cons_self y hx,
            ih hxs fun z hz => heq z (List.mem_cons_of_mem x hz)]

/-- Reading the last of the sources with a name is reading each of them if they have one
content. -/
theorem map_namesake_iff {β : Type} (f : Path → β) :
    sources.map (fun s => f (namesake sources s)) = sources.map f ↔
      ∀ s ∈ sources, ∀ s' ∈ sources, fileName? s = fileName? s' → f s = f s' := by
  rw [List.map_inj_left]
  constructor
  · intro h s hs s' hs' hname
    have same : namesake sources s = namesake sources s' := by
      have hfind := find?_namesake hs
      rw [hname] at hfind
      exact Option.some.inj (hfind.symm.trans (find?_namesake hs'))
    rw [← h s hs, same, h s' hs']
  · intro h s hs
    have hfind := find?_namesake hs
    have hmem := List.mem_reverse.mp (List.mem_of_find?_eq_some hfind)
    exact h _ hmem s hs (by simpa using List.find?_some hfind)

/-- Staging gives out one path for a source, in order. Each reads as the last of the sources
that have the file name of its own, so all read as their own sources did exactly when sources
with one file name have one content. -/
theorem stage_reads_namesake {links copies : List Path} {staged : Staged}
    (apart : t.Apart d (links ++ copies)) (h : stage root links copies t = (.ok staged, v))
    (hl : v.LeadsTo i root d) (hi : i < linkLimit) :
    staged.path = root ∧
      (links ++ copies).map (target root) = staged.files.map .ok ∧
      staged.files.map v.readBytes =
        (links ++ copies).map (fun s => t.readBytes (namesake (links ++ copies) s)) ∧
      (staged.files.map v.readBytes = (links ++ copies).map t.readBytes ↔
        ∀ s ∈ links ++ copies, ∀ s' ∈ links ++ copies, fileName? s = fileName? s' →
          t.readBytes s = t.readBytes s') := by
  obtain ⟨t', u, ps, qs, hmake, hlinks, hcopies, rfl⟩ := stage_ok h
  have w : (t.cleared d (links ++ copies)).Within t := cleared_within t d (links ++ copies)
  have w' : t.Within t' := by
    have hgrows := grows_makeDirectories root t
    rwa [hmake] at hgrows
  have free : ∀ s ∈ links ++ copies, ∀ name, fileName? s = some name →
      (t.cleared d (links ++ copies)).at? (name :: d) = none :=
    fun s hs name hname => at?_cleared hs hname
  have found := apart.found
  have here := apart.here
  generalize t.cleared d (links ++ copies) = base at w free found here
  rw [List.forall_mem_append] at free found
  -- The path is known to lead to `d` at the end, so the copies, made last, come first.
  obtain ⟨⟨k, hk, hl'⟩, hmap', hfills'⟩ := placeAll_ok copy_puts (images_copyOf base) free.2
    found.2 (Nat.le_of_lt hi) hl hcopies
  obtain ⟨-, hmap, hfills⟩ := placeAll_ok link_puts (images_linkTo here) free.1 found.1 hk hl'
    hlinks
  obtain ⟨wu, hfills⟩ := hfills (w.trans w')
  obtain ⟨wv, hfills'⟩ := hfills' wu
  have targets : (links ++ copies).map (target root) = (ps ++ qs).map .ok := by
    rw [List.map_append, List.map_append, hmap, hmap']
  have reads : (ps ++ qs).map v.readBytes =
      (links ++ copies).map (fun s => t.readBytes (namesake (links ++ copies) s)) :=
    map_eq_map_of_ok targets fun s hs p hp =>
      (hfills.append hfills').readBytes wv hi hl w hs hp
  refine ⟨rfl, targets, reads, ?_⟩
  rw [reads]
  exact map_namesake_iff t.readBytes

/-- Two files with one name and one content, and a file with a name of its own. -/
def shelf : FileTree := ofEntries
  [(["a".toList], .directory), (["x".toList, "a".toList], .file [49] false),
    (["y".toList, "a".toList], .file [50] true), (["b".toList], .directory),
    (["x".toList, "b".toList], .file [49] false)]

/-- The shelf after the three files have been staged. -/
def stocked : FileTree :=
  (stage "/q".toList ["/a/x".toList] ["/a/y".toList, "/b/x".toList] shelf).2

theorem stage_shelf :
    shelf.Apart ["q".toList] ["/a/x".toList, "/a/y".toList, "/b/x".toList] ∧
    stage "/q".toList ["/a/x".toList] ["/a/y".toList, "/b/x".toList] shelf =
      (.ok ⟨"/q".toList, ["/q/x".toList, "/q/y".toList, "/q/x".toList]⟩, stocked) ∧
    stocked.LeadsTo 0 "/q".toList ["q".toList] ∧
    ["/q/x".toList, "/q/y".toList, "/q/x".toList].map stocked.readBytes =
      ["/a/x".toList, "/a/y".toList, "/b/x".toList].map shelf.readBytes := by
  have apart : shelf.Apart ["q".toList] ["/a/x".toList, "/a/y".toList, "/b/x".toList] := by
    refine ⟨trivial, ?_⟩
    simp only [List.forall_mem_cons]
    exact ⟨⟨([49], false), rfl⟩, ⟨([50], true), rfl⟩, ⟨([49], false), rfl⟩, nofun⟩
  have staged : stage "/q".toList ["/a/x".toList] ["/a/y".toList, "/b/x".toList] shelf =
      (.ok ⟨"/q".toList, ["/q/x".toList, "/q/y".toList, "/q/x".toList]⟩, stocked) := rfl
  have proper : Storable "q".toList := ⟨⟨by decide, by decide, by decide, by decide⟩, by decide⟩
  have leads : stocked.LeadsTo 0 "/q".toList ["q".toList] :=
    .idle (.inl rfl) (.down proper rfl .here)
  have same : ∀ s ∈ ["/a/x".toList, "/a/y".toList, "/b/x".toList],
      ∀ s' ∈ ["/a/x".toList, "/a/y".toList, "/b/x".toList],
        fileName? s = fileName? s' → shelf.readBytes s = shelf.readBytes s' := by
    have hxy : fileName? "/a/x".toList ≠ fileName? "/a/y".toList := by decide
    have hxy' : fileName? "/b/x".toList ≠ fileName? "/a/y".toList := by decide
    simp only [List.forall_mem_cons]
    exact ⟨⟨fun _ => trivial, fun h => absurd h hxy, fun _ => rfl, nofun⟩,
      ⟨fun h => absurd h.symm hxy, fun _ => trivial, fun h => absurd h.symm hxy', nofun⟩,
      ⟨fun _ => rfl, fun h => absurd h hxy', fun _ => trivial, nofun⟩, nofun⟩
  obtain ⟨-, -, -, reads⟩ := stage_reads_namesake apart staged leads (by decide)
  exact ⟨apart, staged, leads, reads.mpr same⟩

/-- Two files with one name. -/
def namesakes : FileTree := ofEntries
  [(["a".toList], .directory), (["x".toList, "a".toList], .file [49] false),
    (["b".toList], .directory), (["x".toList, "b".toList], .file [50] false)]

/-- The second file takes the place of the first, and both paths read as the second. -/
theorem stage_namesakes :
    ["/a/x".toList, "/b/x".toList].map namesakes.regularFile =
      [.ok ([49], false), .ok ([50], false)] ∧
    (stage "/q".toList ["/a/x".toList, "/b/x".toList] [] namesakes).1 =
      .ok ⟨"/q".toList, ["/q/x".toList, "/q/x".toList]⟩ ∧
    ["/q/x".toList, "/q/x".toList].map
        (stage "/q".toList ["/a/x".toList, "/b/x".toList] [] namesakes).2.readBytes =
      [.ok [50], .ok [50]] := ⟨rfl, rfl, rfl⟩

end Staging
end Horizon
