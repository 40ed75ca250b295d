import Horizon.Proofs.MadeDirectories
import Horizon.Proofs.StagingChanges
import Mathlib.Data.List.Induction

/-!
Staging once more. Whatever comes of staging, it makes the query's directory and otherwise changes
only what may give way to the sources. If it succeeds, and the sources are found without what may
give way, then every file that is placed would be placed in the same way from any tree that has the
rest, so the same call makes of its own result the same entries in the same order.
-/

namespace Horizon
namespace FileTree

open FileOp Horizon.Path

variable {t u a b c : FileTree} {i j k : Nat} {dir d d' l m : Location} {n name : Text}
  {xs : List Text} {e e' : Entry} {root s p : Path} {sources : List Path}

/-! Entries that are put twice. -/

theorem modifyLevel_modifyLevel (f g : Entries → Entries) (n : Nat) (levels : List Entries) :
    modifyLevel f n (modifyLevel g n levels) = modifyLevel (f ∘ g) n levels := by
  induction n generalizing levels with
  | zero => cases levels <;> rfl
  | succ n ih => cases levels <;> simp [modifyLevel, ih]

theorem without_without (l m : Location) (entries : Entries) :
    without l (without m entries) = without m (without l entries) := by
  simp only [without, List.filter_filter, Bool.and_comm]

theorem without_self (l : Location) (entries : Entries) :
    without l (without l entries) = without l entries := by
  simp [without]

theorem put_erase (t : FileTree) (l : Location) (e : Entry) :
    (t.erase l).put l e = t.put l e := by
  simp only [put, erase, modifyLevel_modifyLevel, Function.comp_def, without_self]

theorem erase_put (t : FileTree) (l : Location) (e : Entry) :
    (t.put l e).erase l = t.erase l := by
  have gone : ∀ entries : Entries, without l ((l, e) :: without l entries) = without l entries := by
    simp [without]
  simp only [put, erase, modifyLevel_modifyLevel, Function.comp_def, gone]

theorem erase_put_of_ne (hm : m ≠ l) (hlength : m.length = l.length) (t : FileTree) (e : Entry) :
    (t.put l e).erase m = (t.erase m).put l e := by
  have hne : ¬ l = m := fun h => hm h.symm
  have swap : ∀ entries : Entries,
      without m ((l, e) :: without l entries) = (l, e) :: without l (without m entries) := by
    intro entries
    rw [without_without l m]
    simp [without, hne]
  simp only [put, erase, hlength, modifyLevel_modifyLevel, Function.comp_def, swap]

theorem put_put (t : FileTree) (l : Location) (e e' : Entry) :
    (t.put l e).put l e' = t.put l e' := by
  rw [← put_erase, erase_put, put_erase]

def putAll (t : FileTree) (puts : Entries) : FileTree := puts.foldl (fun t x => t.put x.1 x.2) t

theorem putAll_append (t : FileTree) (xs ys : Entries) :
    t.putAll (xs ++ ys) = (t.putAll xs).putAll ys :=
  List.foldl_append

/-- What is erased at the end need not have been put. -/
theorem erase_putAll {puts : Entries} (hlength : ∀ x ∈ puts, m.length = x.1.length)
    (t : FileTree) :
    (t.putAll puts).erase m = (t.erase m).putAll (puts.filter fun x => x.1 ≠ m) := by
  induction puts generalizing t with
  | nil => rfl
  | cons x puts ih =>
      rw [List.forall_mem_cons] at hlength
      have hrest := ih hlength.2 (t.put x.1 x.2)
      by_cases hx : x.1 = m
      · rw [List.filter_cons_of_neg (by simp [hx]), ← erase_put t m x.2]
        simpa [putAll, hx] using hrest
      · rw [List.filter_cons_of_pos (by simp [hx])]
        rw [erase_put_of_ne (Ne.symm hx) hlength.1] at hrest
        exact hrest

/-- Entries of one level that are there already can be put once more, in the same order. -/
theorem putAll_putAll {puts : Entries} {n : Nat} (hlength : ∀ x ∈ puts, x.1.length = n)
    (t : FileTree) : (t.putAll puts).putAll puts = t.putAll puts := by
  -- From the back: the entry put last can be erased before the others are put once more.
  induction puts using List.reverseRecOn with
  | nil => rfl
  | append_singleton puts x ih =>
      rw [List.forall_mem_append, List.forall_mem_singleton] at hlength
      have same : ∀ y ∈ puts, x.1.length = y.1.length :=
        fun y hy => hlength.2.trans (hlength.1 y hy).symm
      have last : ∀ u : FileTree, u.putAll (puts ++ [x]) = (u.putAll puts).put x.1 x.2 :=
        fun u => putAll_append u puts [x]
      rw [last, last]
      calc (((t.putAll puts).put x.1 x.2).putAll puts).put x.1 x.2
          = ((((t.putAll puts).put x.1 x.2).putAll puts).erase x.1).put x.1 x.2 :=
            (put_erase _ _ _).symm
        _ = (((t.putAll puts).putAll puts).erase x.1).put x.1 x.2 := by
            rw [erase_putAll same, erase_put, ← erase_putAll same]
        _ = (t.putAll puts).put x.1 x.2 := by rw [ih hlength.1, put_erase]

section
variable {puts : Entries}

theorem at?_putAll_ne_directory (hputs : ∀ x ∈ puts, x.1 ≠ [] ∧ x.2 ≠ .directory)
    (h : t.at? l ≠ some .directory) : (t.putAll puts).at? l ≠ some .directory := by
  induction puts generalizing t with
  | nil => exact h
  | cons x puts ih =>
      rw [List.forall_mem_cons] at hputs
      refine ih hputs.2 (t := t.put x.1 x.2) ?_
      rw [at?_put hputs.1.1]
      split
      · exact fun he => hputs.1.2 (Option.some.inj he)
      · exact h

theorem at?_putAll_of_ne (hputs : ∀ x ∈ puts, x.1 ≠ []) (h : ∀ x ∈ puts, x.1 ≠ l) :
    (t.putAll puts).at? l = t.at? l := by
  induction puts generalizing t with
  | nil => rfl
  | cons x puts ih =>
      rw [List.forall_mem_cons] at hputs h
      have hrest := ih hputs.2 h.2 (t := t.put x.1 x.2)
      rwa [at?_put hputs.1, if_neg (Ne.symm h.1)] at hrest

/-- A part of the tree that has nothing in these places is still there. -/
theorem Within.putAll {base : FileTree} (w : base.Within t)
    (hputs : ∀ x ∈ puts, x.1 ≠ [] ∧ base.at? x.1 = none) : base.Within (t.putAll puts) := by
  induction puts generalizing t with
  | nil => exact w
  | cons x puts ih =>
      rw [List.forall_mem_cons] at hputs
      exact ih ((sets_put hputs.1.1 x.2).within w hputs.1.2) hputs.2

end

/-! The way to the directory. -/

/-- A way that two parts of a tree have is there in what they have in common. -/
theorem Leads.meet (wa : a.Within t) (wb : b.Within t)
    (hc : ∀ l e, a.at? l = some e → b.at? l = some e → c.at? l = some e)
    (h : a.Leads i dir xs d) (h' : b.Leads j dir xs d') : c.Leads i dir xs d := by
  have both : ∀ l e e', a.at? l = some e → b.at? l = some e' → e = e' ∧ c.at? l = some e := by
    intro l e e' ha hb
    obtain rfl := Option.some.inj ((wa.keeps l e ha).symm.trans (wb.keeps l e' hb))
    exact ⟨rfl, hc l e ha hb⟩
  induction h generalizing j with
  | here => exact .here
  | idle hn _ ih =>
      cases h' with
      | idle _ h' => exact .idle hn (ih h')
      | up => simp at hn
      | down hs | follow hs => exact absurd hn hs.not_idle
  | up _ ih =>
      cases h' with
      | idle hn => simp at hn
      | up h' => exact .up (ih h')
      | down hs | follow hs => exact absurd rfl hs.ne_up
  | down hs he _ ih =>
      cases h' with
      | idle hn => exact absurd hn hs.not_idle
      | up => exact absurd rfl hs.ne_up
      | down _ he' h' => exact .down hs (both _ _ _ he he').2 (ih h')
      | follow _ he' => cases (both _ _ _ he he').1
  | follow hs he _ ih =>
      cases h' with
      | idle hn => exact absurd hn hs.not_idle
      | up => exact absurd rfl hs.ne_up
      | down _ he' => cases (both _ _ _ he he').1
      | follow _ he' h' =>
          obtain ⟨heq, hboth⟩ := both _ _ _ he he'
          cases heq
          exact .follow hs hboth (ih h')

/-- The way to a directory does not pass through an entry without which it is there as well. -/
theorem LeadsTo.erase (h : a.LeadsTo i root d) (w : a.Within t) (hset : t.Sets (n :: d') none u)
    (h' : u.LeadsTo j root d) : (a.erase (n :: d')).LeadsTo i root d := by
  have herase := sets_erase (t := a) (List.cons_ne_nil n d')
  have hu : u.Leads j (a.start root) (dirNames root) d := by
    rw [← w.start_eq, hset.within_of_none.start_eq]
    exact h'
  rw [LeadsTo, ← herase.within_of_none.start_eq]
  refine Leads.meet w hset.within_of_none (fun l e ha hb => ?_) h hu
  have hne : l ≠ n :: d' := by
    rintro rfl
    cases hset.at?_self.symm.trans hb
  rw [herase.at?_of_ne hne, ha]

theorem cleared_cons (hname : fileName? s = some name) (t : FileTree) (sources : List Path) :
    t.cleared d (s :: sources) = (t.erase (name :: d)).cleared d sources := by
  simp [cleared, hname]

theorem cleared_append (t : FileTree) (d : Location) (xs ys : List Path) :
    t.cleared d (xs ++ ys) = (t.cleared d xs).cleared d ys := by
  simp [cleared, List.filterMap_append, List.foldl_append]

theorem at?_cleared_of_ne
    (h : ∀ s ∈ sources, ∀ name, fileName? s = some name → l ≠ name :: d) :
    (t.cleared d sources).at? l = t.at? l := by
  induction sources generalizing t with
  | nil => rfl
  | cons s sources ih =>
      rw [List.forall_mem_cons] at h
      cases hname : fileName? s with
      | none =>
          have hrest := ih h.2 (t := t)
          simpa [cleared, hname] using hrest
      | some name =>
          rw [cleared_cons hname, ih h.2, (sets_erase (List.cons_ne_nil name d)).at?_of_ne
            (h.1 name hname)]

/-- What has nothing in the places that are cleared is within what is left. -/
theorem Within.cleared {base : FileTree} (w : base.Within t)
    (free : ∀ s ∈ sources, ∀ name, fileName? s = some name → base.at? (name :: d) = none) :
    base.Within (t.cleared d sources) := by
  refine ⟨(cleared_within t d sources).here.symm.trans w.here, fun l e he => ?_⟩
  rw [at?_cleared_of_ne fun s hs name hname hl => ?_]
  · exact w.keeps l e he
  · cases (free s hs name hname).symm.trans (hl ▸ he)

/-! Sources. -/

/-- A path leads to an entry, past any links. -/
def Finds (t : FileTree) (p : Path) : Prop :=
  ∃ l e, t.Resolves .target linkLimit (t.start p) (names p) (.found l) ∧ t.at? l = some e

theorem Finds.mono (h : t.Finds p) (w : t.Within u) : u.Finds p := by
  obtain ⟨l, e, hr, he⟩ := h
  rw [← w.start_eq] at hr
  exact ⟨l, e, hr.mono w, w.keeps l e he⟩

/-- What is found has one path without links in every larger tree. -/
theorem Finds.canonical_eq (h : t.Finds p) (w : t.Within u) : u.canonical p = t.canonical p := by
  obtain ⟨l, e, hr, -⟩ := h
  unfold canonical
  cases hp : pathNames p with
  | error e => rfl
  | ok xs =>
      obtain rfl := pathNames_eq_ok hp
      dsimp only
      rw [w.start_eq, hr.walk, (hr.mono w).walk]

theorem Finds.regularFile_eq (h : t.Finds p) (w : t.Within u) :
    u.regularFile p = t.regularFile p := by
  obtain ⟨l, e, hr, he⟩ := h
  unfold regularFile status existing locate
  cases hp : checkedNames p with
  | error e => rfl
  | ok xs =>
      obtain rfl := checkedNames_eq_ok hp
      dsimp only
      rw [w.start_eq, hr.walk, (hr.mono w).walk]
      dsimp only
      rw [he, w.keeps l e he]

end FileTree

namespace Staging

open FileTree FileOp Horizon.Path

variable {α β : Type} {t u v base : FileTree} {root p s : Path} {sources : List Path} {name : Text}
  {d l : Location} {i k : Nat} {put : Path → Path → FileOp Unit}
  {image : FileTree → Path → Entry → Prop}

/-! What is put in a tree, and again in others. -/

/-- From `t` the operation puts some entries in the directory, and it gives the same and puts the
same from every tree that has `base` and no directories in their places. -/
structure Replays (base : FileTree) (d : Location) (op : FileOp α) (t : FileTree) (a : α)
    (puts : Entries) : Prop where
  fresh : ∀ x ∈ puts, (∃ n, x.1 = n :: d) ∧ base.at? x.1 = none ∧ x.2 ≠ .directory
  ready : ∀ x ∈ puts, t.at? x.1 ≠ some .directory
  again : ∀ w : FileTree, base.Within w → (∀ x ∈ puts, w.at? x.1 ≠ some .directory) →
    op w = (.ok a, w.putAll puts)

section
variable {op : FileOp α} {a : α} {puts : Entries}

theorem Replays.ne_nil (h : Replays base d op t a puts) : ∀ x ∈ puts, x.1 ≠ [] := by
  intro x hx
  obtain ⟨⟨n, hn⟩, -⟩ := h.fresh x hx
  rw [hn]
  exact List.cons_ne_nil n d

theorem Replays.within (h : Replays base d op t a puts) (w : base.Within u) :
    base.Within (u.putAll puts) :=
  w.putAll fun x hx => ⟨h.ne_nil x hx, (h.fresh x hx).2.1⟩

theorem Replays.ne_directory (h : Replays base d op t a puts) (hl : u.at? l ≠ some .directory) :
    (u.putAll puts).at? l ≠ some .directory :=
  at?_putAll_ne_directory (fun x hx => ⟨h.ne_nil x hx, (h.fresh x hx).2.2⟩) hl

/-- The operation does the same once more from the tree that it leaves, and changes nothing. -/
theorem Replays.replay (h : Replays base d op t a puts) (w : base.Within t) :
    op (t.putAll puts) = (.ok a, t.putAll puts) := by
  have hlength : ∀ x ∈ puts, x.1.length = d.length + 1 := by
    intro x hx
    obtain ⟨⟨n, hn⟩, -⟩ := h.fresh x hx
    rw [hn, List.length_cons]
  rw [h.again _ (h.within w) fun x hx => h.ne_directory (h.ready x hx), putAll_putAll hlength]

theorem replays_pure (base : FileTree) (d : Location) (t : FileTree) (a : α) :
    Replays base d (pure a) t a [] :=
  ⟨nofun, nofun, fun _ _ _ => rfl⟩

theorem Replays.bind {f : α → FileOp β} {b : β} {more : Entries} (h : Replays base d op t a puts)
    (h' : Replays base d (f a) (t.putAll puts) b more) :
    Replays base d (op >>= f) t b (puts ++ more) := by
  refine ⟨List.forall_mem_append.mpr ⟨h.fresh, h'.fresh⟩,
    List.forall_mem_append.mpr ⟨h.ready, fun x hx hdir => ?_⟩, fun w hw hready => ?_⟩
  · by_cases hput : ∃ y ∈ puts, y.1 = x.1
    · obtain ⟨y, hy, hyx⟩ := hput
      exact h.ready y hy (hyx ▸ hdir)
    · have hne : ∀ y ∈ puts, y.1 ≠ x.1 := fun y hy hyx => hput ⟨y, hy, hyx⟩
      exact h'.ready x hx ((at?_putAll_of_ne h.ne_nil hne).trans hdir)
  · rw [List.forall_mem_append] at hready
    have first := h.again w hw hready.1
    have second := h'.again _ (h.within hw) fun x hx => h.ne_directory (hready.2 x hx)
    rw [putAll_append, ← second, bind_apply, first]

end

/-- What is made of a source in a free place is made of it again in every tree that has the way to
the directory and the way to the source. -/
def PutsAgain (put : Path → Path → FileOp Unit) : Prop :=
  ∀ {base u v : FileTree} {root s : Path} {name : Text} {k : Nat} {d : Location},
    base.LeadsTo k root d → k ≤ linkLimit → Accepted root name → base.Finds s → base.Within u →
    put s (join root name) u = (.ok (), v) →
    ∃ e, e ≠ .directory ∧ ∀ w : FileTree, base.Within w → w.at? (name :: d) = none →
      put s (join root name) w = (.ok (), w.put (name :: d) e)

theorem link_putsAgain : PutsAgain link := by
  intro base u v root s name k d hl hk ha hs w h
  obtain ⟨q, _, hask, hmake⟩ := bind_ok_iff.mp h
  obtain ⟨hq, rfl⟩ := ask_ok_iff.mp hask
  rw [makeLink_join ha.toIsName] at hmake
  cases hrefusal : linkRefusal q (join root name) with
  | some e =>
      rw [hrefusal] at hmake
      cases hmake
  | none =>
      refine ⟨.link q, nofun, fun w' hw free => ?_⟩
      have hq' : w'.canonical s = .ok q := by rw [hs.canonical_eq hw, ← hs.canonical_eq w, hq]
      refine bind_ok_iff.mpr ⟨q, w', ask_ok_iff.mpr ⟨hq', rfl⟩, ?_⟩
      rw [makeLink_join ha.toIsName, hrefusal, (hl.mono hw).locate_entry hk ha, lookup, free]
      rfl

theorem copy_putsAgain : PutsAgain copy := by
  intro base u v root s name k d hl hk ha hs w h
  rw [copy_apply] at h
  cases hfile : u.regularFile s with
  | error e =>
      rw [hfile] at h
      cases h
  | ok file =>
      refine ⟨.file file.1 file.2, nofun, fun w' hw free => ?_⟩
      have hfile' : w'.regularFile s = .ok file := by
        rw [hs.regularFile_eq hw, ← hs.regularFile_eq w, hfile]
      have hlocate : w'.locate .file (join root name) = .ok (.absent d name false) :=
        (hl.mono hw).locate_join hk ha (.absent ha.toStorable Aim.allows_nil free nofun)
      rw [copy_apply, hfile']
      dsimp only
      rw [openForWriting_of_absent hlocate]
      dsimp only
      rw [put_put]

theorem exists_clear (hr : Reaches t root name d) (hdir : t.at? (name :: d) ≠ some .directory) :
    ∃ u, clear (join root name) t = (.ok (), u) ∧ t.Sets (name :: d) none u ∧
      ∀ e, u.put (name :: d) e = t.put (name :: d) e := by
  cases he : t.at? (name :: d) with
  | none =>
      obtain ⟨ha, i, hi, hl⟩ := hr
      refine ⟨t, ?_, sets_self he, fun _ => rfl⟩
      rw [clear_apply, hl.status_entry hi ha, he]
      rfl
  | some e =>
      have hne : e ≠ .directory := fun h => hdir (h ▸ he)
      exact ⟨_, clear_of_reaches hr he hne, sets_erase (List.cons_ne_nil name d), put_erase t _⟩

theorem Placed.replays {e : Entry} (hagain : PutsAgain put)
    (h : Placed put image t root s name d e u v) (hw : base.Within t) (hl : base.LeadsTo k root d)
    (hk : k ≤ linkLimit) (hs : base.Finds s) (free : base.at? (name :: d) = none) :
    ∃ e, Replays base d (place put root s) t (join root name) [(name :: d, e)] := by
  obtain ⟨e, he, hput⟩ := hagain hl hk h.accepted hs (h.cleared.within hw free) h.made
  refine ⟨e, by simpa using ⟨free, he⟩, by simpa using h.not_directory, fun w hw hready => ?_⟩
  rw [List.forall_mem_singleton] at hready
  obtain ⟨w', hclear, hset, hsame⟩ := exists_clear ⟨h.accepted, k, hk, hl.mono hw⟩ hready
  have hmade := hput w' (hset.within hw free) hset.at?_self
  rw [hsame] at hmade
  exact bind_ok_iff.mpr ⟨_, w, ask_ok_iff.mpr ⟨target_ok_iff.mpr ⟨name, h.named, rfl⟩, rfl⟩,
    bind_ok_iff.mpr ⟨(), w', hclear, bind_ok_iff.mpr ⟨(), _, hmade, rfl⟩⟩⟩

/-- Placing files that are found in a part of the tree puts entries that are put again from every
tree with that part. -/
theorem placeAll_replays {ps : List Path} (hput : Puts put image) (hagain : PutsAgain put)
    (hl : base.LeadsTo k root d) (hk : k ≤ linkLimit) (hs : ∀ s ∈ sources, base.Finds s)
    (free : ∀ s ∈ sources, ∀ name, fileName? s = some name → base.at? (name :: d) = none)
    (w : base.Within t) (h : placeAll put root sources t = (.ok ps, v)) :
    ∃ puts, Replays base d (placeAll put root sources) t ps puts := by
  induction sources generalizing t ps with
  | nil =>
      cases h
      exact ⟨[], replays_pure base d _ []⟩
  | cons s sources ih =>
      obtain ⟨p, qs, t', hplace, hrest, rfl⟩ := exists_of_placeAll_cons h
      rw [List.forall_mem_cons] at hs free
      obtain ⟨name, d', e, u, rfl, hplaced⟩ := placed_of_place hput hplace
      obtain rfl := hplaced.eq_of_leads_before (hl.mono w)
      obtain ⟨e', first⟩ :=
        hplaced.replays hagain w hl hk hs.1 (free.1 name hplaced.named)
      have ht' := first.again t w first.ready
      rw [hplace] at ht'
      cases ht'
      obtain ⟨puts, rest⟩ := ih hs.2 free.2 (first.within w) hrest
      exact ⟨_, first.bind (rest.bind (replays_pure base d' _ _))⟩

/-- The way to the directory passes through none of the entries that are replaced, since it is there
each time when one of them is gone. -/
theorem placeAll_leads {ps : List Path} (hput : Puts put image) (w : base.Within t)
    (hl : base.LeadsTo k root d) (h : placeAll put root sources t = (.ok ps, v)) :
    (base.cleared d sources).LeadsTo k root d ∧ (base.cleared d sources).Within v := by
  induction sources generalizing base t ps with
  | nil =>
      cases h
      exact ⟨hl, w⟩
  | cons s sources ih =>
      obtain ⟨p, qs, t', hplace, hrest, rfl⟩ := exists_of_placeAll_cons h
      obtain ⟨name, d', e, u, rfl, hplaced⟩ := placed_of_place hput hplace
      obtain rfl := hplaced.eq_of_leads_before (hl.mono w)
      -- The place of the file was reached with its old entry and again without it.
      obtain ⟨j, -, hu⟩ := hplaced.leads
      have herase := sets_erase (t := base) (List.cons_ne_nil name d')
      have hset := hplaced.cleared.trans hplaced.entered
      rw [cleared_cons hplaced.named]
      exact ih (hset.within (herase.within_of_none.trans w) herase.at?_self)
        (hl.erase w hplaced.cleared hu) hrest

/-- Every file that has been placed stands where something might give way to it. -/
theorem placeAll_givesWay {ps : List Path} (hput : Puts put image)
    (hall : ∀ s p, AllOrNothing (put s p)) (h : placeAll put root sources t = (.ok ps, v)) :
    ∀ s ∈ sources, ∃ name d, fileName? s = some name ∧ GivesWay t root sources (name :: d) := by
  induction sources generalizing t ps with
  | nil => nofun
  | cons s sources ih =>
      obtain ⟨p, qs, t', hplace, hrest, rfl⟩ := exists_of_placeAll_cons h
      obtain ⟨hchanges, hstay⟩ := place_changes hput hall hplace
      obtain ⟨name, d, e, u, rfl, hplaced⟩ := placed_of_place hput hplace
      refine List.forall_mem_cons.mpr ⟨⟨name, d, hplaced.named, hplaced.not_directory, s,
        List.mem_cons_self, name, d, hplaced.named,
        ⟨hplaced.accepted, hplaced.leads_before⟩, rfl⟩, fun s' hs' => ?_⟩
      obtain ⟨name', d', hname', hway⟩ := ih hrest s' hs'
      exact ⟨name', d', hname', hchanges.givesWay (hstay rfl) hway⟩

/-- A path leads to an entry in a part of the tree that has nothing at some locations. -/
def FindsWithout (t : FileTree) (gone : Location → Prop) (p : Path) : Prop :=
  ∃ base : FileTree, base.Within t ∧ (∀ l, gone l → base.at? l = none) ∧ base.Finds p

theorem GivesWay.eq_directory {n : Text} {d' : Location} (h : GivesWay t root sources (n :: d'))
    (hl : t.LeadsTo k root d) : d' = d := by
  obtain ⟨-, s, -, name, d'', -, ⟨-, i, -, hl'⟩, heq⟩ := h
  rw [(List.cons_eq_cons.mp heq).2]
  exact hl'.unique hl

theorem FindsWithout.finds_cleared (h : FindsWithout t (GivesWay t root sources) s)
    (hl : t.LeadsTo k root d) (hway : ∀ s ∈ sources, ∃ name d, fileName? s = some name ∧
      GivesWay t root sources (name :: d)) : (t.cleared d sources).Finds s := by
  obtain ⟨part, w, free, hfinds⟩ := h
  refine hfinds.mono (w.cleared fun s' hs' name hname => free _ ?_)
  obtain ⟨name', d', hname', hway⟩ := hway s' hs'
  obtain rfl := Option.some.inj (hname'.symm.trans hname)
  exact hway.eq_directory hl ▸ hway

theorem leadsTo_of_makeDirectories (h : makeDirectories root t = (.ok (), u)) :
    ∃ k ≤ linkLimit, ∃ d, u.LeadsTo k root d ∧ (root ≠ [] → u.at? d = some .directory) := by
  by_cases hroot : root = []
  · subst hroot
    exact ⟨0, Nat.zero_le _, u.here, .here, fun hne => absurd rfl hne⟩
  · obtain ⟨k, hk, d, hl, hd⟩ :=
      leadsTo_of_isDirectoryAt hroot ((isDirectoryAt_of_makeDirectories h).resolve_left hroot)
    exact ⟨k, hk, d, hl, fun _ => hd⟩

/-- What staging does once the directory is there. -/
def placeBoth (root : Path) (links copies : List Path) : FileOp Staged := do
  let linked ← placeAll link root links
  let copied ← placeAll copy root copies
  return ⟨root, linked ++ copied⟩

section
variable {links copies ps qs : List Path}

theorem placeBoth_leads (hl : t.LeadsTo k root d)
    (hlinks : placeAll link root links t = (.ok ps, u))
    (hcopies : placeAll copy root copies u = (.ok qs, v)) :
    (t.cleared d (links ++ copies)).LeadsTo k root d ∧
      (t.cleared d (links ++ copies)).Within u := by
  obtain ⟨hfirst, w⟩ := placeAll_leads link_puts (.refl t) hl hlinks
  obtain ⟨hboth, -⟩ := placeAll_leads copy_puts w hfirst hcopies
  rw [cleared_append]
  exact ⟨hboth, (cleared_within _ d copies).trans w⟩

theorem placeBoth_givesWay (hlinks : placeAll link root links t = (.ok ps, u))
    (hcopies : placeAll copy root copies u = (.ok qs, v)) :
    ∀ s ∈ links ++ copies, ∃ name d, fileName? s = some name ∧
      GivesWay t root (links ++ copies) (name :: d) := by
  obtain ⟨hchanges, hstay⟩ := placeAll_changes link_puts allOrNothing_link hlinks
  refine List.forall_mem_append.mpr ⟨fun s hs => ?_, fun s hs => ?_⟩
  · obtain ⟨name, d, hname, hway⟩ := placeAll_givesWay link_puts allOrNothing_link hlinks s hs
    exact ⟨name, d, hname, hway.mono (List.subset_append_left links copies)⟩
  · obtain ⟨name, d, hname, hway⟩ := placeAll_givesWay copy_puts allOrNothing_copy hcopies s hs
    exact ⟨name, d, hname, hchanges.givesWay (hstay rfl) hway⟩

theorem placeBoth_replays (hl : base.LeadsTo k root d) (hk : k ≤ linkLimit)
    (hs : ∀ s ∈ links ++ copies, base.Finds s)
    (free : ∀ s ∈ links ++ copies, ∀ name, fileName? s = some name →
      base.at? (name :: d) = none)
    (w : base.Within t) (w' : base.Within u) (hlinks : placeAll link root links t = (.ok ps, u))
    (hcopies : placeAll copy root copies u = (.ok qs, v)) :
    ∃ puts, Replays base d (placeBoth root links copies) t ⟨root, ps ++ qs⟩ puts := by
  rw [List.forall_mem_append] at hs free
  obtain ⟨puts, linked⟩ := placeAll_replays link_puts link_putsAgain hl hk hs.1 free.1 w hlinks
  obtain ⟨more, copied⟩ := placeAll_replays copy_puts copy_putsAgain hl hk hs.2 free.2 w' hcopies
  have hu := linked.again t w linked.ready
  rw [hlinks] at hu
  cases hu
  exact ⟨_, linked.bind (copied.bind (replays_pure base d _ _))⟩

/-- Staging succeeds again from the tree that it leaves, with the same paths, and changes nothing:
the part of the tree that no source replaces has the way to the directory and to every source. -/
theorem stage_again {staged : Staged} (h : stage root links copies t = (.ok staged, v))
    (hs : ∀ s ∈ links ++ copies, FindsWithout (prepared t root)
      (GivesWay (prepared t root) root (links ++ copies)) s) :
    stage root links copies v = (.ok staged, v) := by
  obtain ⟨t', u, ps, qs, hmake, hlinks, hcopies, rfl⟩ := stage_ok h
  obtain rfl : prepared t root = t' := congrArg Prod.snd hmake
  obtain ⟨k, hk, d, hl, hd⟩ := leadsTo_of_makeDirectories hmake
  obtain ⟨hbase, w'⟩ := placeBoth_leads hl hlinks hcopies
  have hway := placeBoth_givesWay hlinks hcopies
  have w := cleared_within (prepared t root) d (links ++ copies)
  obtain ⟨puts, replays⟩ := placeBoth_replays hbase hk
    (fun s hmem => (hs s hmem).finds_cleared hl hway) (fun _ hmem _ => at?_cleared hmem) w w'
    hlinks hcopies
  have hv := replays.again _ w replays.ready
  rw [placeBoth, ← stage_eq_of_made hmake, h] at hv
  cases hv
  have made : root = [] ∨ ((prepared t root).putAll puts).isDirectoryAt root = true := by
    rw [or_iff_not_imp_left]
    intro hroot
    have hdir : ((prepared t root).cleared d (links ++ copies)).at? d = (prepared t root).at? d :=
      at?_cleared_of_ne fun _ _ name _ => outside_self d name
    exact isDirectoryAt_of_within hbase (hdir.trans (hd hroot)) hroot w (replays.within w)
      ((isDirectoryAt_of_makeDirectories hmake).resolve_left hroot)
  rw [stage_eq_of_made (makeDirectories_of_isDirectoryAt made)]
  exact replays.replay w

end

/-- Whatever comes of staging, what is new are directories that the path of the query's directory or
a parent of it leads to, and everything else that changes may give way to the sources; no directory
does. If staging succeeds and finds the sources without what may give way to them, then it succeeds
again with the same paths, and the tree stays as it is. -/
theorem stage_frame_and_repeat (t : FileTree) (root : Path) (links copies : List Path) :
    let u := (stage root links copies t).2
    u.here = t.here ∧
    (∀ l, u.at? l = t.at? l ∨
      (t.at? l = none ∧ u.at? l = some .directory ∧
        ∃ q ∈ root :: ancestors root, (prepared t root).existing .target q = .ok l) ∨
      GivesWay (prepared t root) root (links ++ copies) l) ∧
    (∀ l, t.at? l = some .directory → u.at? l = some .directory) ∧
    ∀ staged, (stage root links copies t).1 = .ok staged →
      (∀ s ∈ links ++ copies, FindsWithout (prepared t root)
        (GivesWay (prepared t root) root (links ++ copies)) s) →
      stage root links copies u = (.ok staged, u) := by
  intro u
  have made : Made (root :: ancestors root) t (prepared t root) := makes_makeDirectories root t
  have replaced := stage_changes t root links copies
  refine ⟨replaced.here.trans made.here, fun l => ?_, fun l hdir => ?_, fun staged hok hs => ?_⟩
  · rcases replaced.at?_eq l with hl | hway
    · rcases made.at?_eq l with hl' | ⟨hnone, hdir⟩
      · exact .inl (hl.trans hl')
      · exact .inr (.inl ⟨hnone, hl.trans hdir, made.leads l hnone hdir⟩)
    · exact .inr (.inr hway)
  · have hmade := made.within.keeps l _ hdir
    rcases replaced.at?_eq l with hl | hway
    · exact hl.trans hmade
    · exact absurd hmade hway.1
  · exact stage_again (Prod.ext hok rfl) hs

/-- A file, a link to it, another file, and older entries of the names of two of them. -/
def workbench : FileTree := ofEntries
  [(["a".toList], .directory), (["x".toList, "a".toList], .file [49] false),
    (["l".toList, "a".toList], .link "x".toList), (["y".toList, "a".toList], .file [50] true),
    (["q".toList], .directory), (["l".toList, "q".toList], .file [51] false),
    (["y".toList, "q".toList], .link "gone".toList)]

theorem stage_workbench :
    let sources := ["/a/l".toList, "/a/y".toList]
    let u := (stage "/q".toList ["/a/l".toList] ["/a/y".toList] workbench).2
    (stage "/q".toList ["/a/l".toList] ["/a/y".toList] workbench).1 =
      .ok ⟨"/q".toList, ["/q/l".toList, "/q/y".toList]⟩ ∧
    (∀ s ∈ sources, FindsWithout (prepared workbench "/q".toList)
      (GivesWay (prepared workbench "/q".toList) "/q".toList sources) s) ∧
    [u.at? ["l".toList, "q".toList], u.at? ["y".toList, "q".toList]] =
      [some (.link "/a/x".toList), some (.file [50] true)] ∧
    stage "/q".toList ["/a/l".toList] ["/a/y".toList] u =
      (.ok ⟨"/q".toList, ["/q/l".toList, "/q/y".toList]⟩, u) := by
  intro sources u
  have staged : (stage "/q".toList ["/a/l".toList] ["/a/y".toList] workbench).1 =
      .ok ⟨"/q".toList, ["/q/l".toList, "/q/y".toList]⟩ := rfl
  have proper : Storable "q".toList := ⟨⟨by decide, by decide, by decide, by decide⟩, by decide⟩
  have leads : (prepared workbench "/q".toList).LeadsTo 0 "/q".toList ["q".toList] :=
    .idle (.inl rfl) (.down proper rfl .here)
  have free : ∀ l, GivesWay (prepared workbench "/q".toList) "/q".toList sources l →
      ((prepared workbench "/q".toList).cleared ["q".toList] sources).at? l = none := by
    rintro l ⟨-, s, hs, name, d, hname, ⟨-, i, -, hl⟩, rfl⟩
    obtain rfl := leads.unique hl
    exact at?_cleared hs hname
  have finds : ∀ s ∈ sources,
      ((prepared workbench "/q".toList).cleared ["q".toList] sources).Finds s := by
    have plain : ∀ {p n : Path}, n ∈ names p → '/' ∉ n := no_slash_of_mem_names
    simp only [sources, List.forall_mem_cons]
    exact ⟨⟨["x".toList, "a".toList], .file [49] false, resolves_of_walk (fun _ => plain) rfl, rfl⟩,
      ⟨["y".toList, "a".toList], .file [50] true, resolves_of_walk (fun _ => plain) rfl, rfl⟩,
      nofun⟩
  have without : ∀ s ∈ sources, FindsWithout (prepared workbench "/q".toList)
      (GivesWay (prepared workbench "/q".toList) "/q".toList sources) s :=
    fun s hs => ⟨_, cleared_within _ _ _, free, finds s hs⟩
  obtain ⟨-, -, -, again⟩ :=
    stage_frame_and_repeat workbench "/q".toList ["/a/l".toList] ["/a/y".toList]
  exact ⟨staged, without, rfl, again _ staged without⟩

end Staging
end Horizon
