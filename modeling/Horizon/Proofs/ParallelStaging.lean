import Horizon.Proofs.ParallelWalks
import Horizon.Proofs.StagingChanges

/-!
Staging in two trees at once. The trees differ in the query's own files only. Every operation
gives the same in both, and as long as it succeeds they go on to differ in these files only: what
takes the place of an entry of the query's directory is taken from files that lie elsewhere.
-/

namespace Horizon
namespace FileOp

variable {α β : Type} {R : FileTree → FileTree → Prop} {S : α → FileTree → FileTree → Prop}
  {T : β → FileTree → FileTree → Prop}

/-- From related trees the operation gives the same, and it leaves related ones if it succeeds. -/
def Together (R : FileTree → FileTree → Prop) (op : FileOp α)
    (S : α → FileTree → FileTree → Prop) : Prop :=
  ∀ t u, R t u → (op u).1 = (op t).1 ∧ ∀ a, (op t).1 = .ok a → S a (op t).2 (op u).2

theorem Together.bind {x : FileOp α} {f : α → FileOp β} (hx : Together R x S)
    (hf : ∀ a, Together (S a) (f a) T) : Together R (x >>= f) T := by
  intro t u h
  obtain ⟨hresult, hstate⟩ := hx t u h
  rw [bind_apply, bind_apply]
  rcases ht : x t with ⟨e | a, t'⟩
  · rcases hu : x u with ⟨e' | a', u'⟩
    · rw [ht, hu] at hresult
      cases hresult
      exact ⟨rfl, nofun⟩
    · rw [ht, hu] at hresult
      cases hresult
  · rcases hu : x u with ⟨e' | a', u'⟩
    · rw [ht, hu] at hresult
      cases hresult
    · rw [ht, hu] at hresult hstate
      cases hresult
      exact hf a t' u' (hstate a rfl)

theorem Together.mono {op : FileOp α} {R' : FileTree → FileTree → Prop} (h : Together R op S)
    (hr : ∀ t u, R' t u → R t u) : Together R' op S :=
  fun t u h' => h t u (hr t u h')

theorem together_pure (a : α) (h : ∀ t u, R t u → S a t u) : Together R (pure a) S := by
  intro t u hr
  refine ⟨rfl, fun a' ha => ?_⟩
  cases ha
  exact h t u hr

theorem together_ask {question : FileTree → Except FileError α}
    (h : ∀ t u, R t u → question u = question t ∧ ∀ a, question t = .ok a → S a t u) :
    Together R (ask question) S :=
  h

end FileOp

namespace FileTree

open Horizon.Path

variable {t u u₁ u₂ v₁ v₂ : FileTree} {k i j : Nat} {d l : Location} {n name : Text} {root p s : Path}
  {own own' : List Text} {copied : Prop} {o o₁ o₂ : Option Entry} {aim : Aim}

/-! The trees after a change. -/

theorem Sets.outside (h : u.Sets (n :: d) o v₁) (hl : Outside d l) : v₁.at? l = u.at? l :=
  h.at?_of_ne (hl n)

/-- An entry of the directory, of the same name in both trees, is replaced. -/
theorem Paired.set (h : Paired t d own copied u₁ u₂) (hsub : own' ⊆ own)
    (hown : ∀ m ∈ own, m ≠ n → m ∈ own') (hdir : t.at? (n :: d) ≠ some .directory)
    (hr : Refill t d copied o₁) (hm : Matched o₁ o₂) (h₁ : u₁.Sets (n :: d) o₁ v₁)
    (h₂ : u₂.Sets (n :: d) o₂ v₂) : Paired t d own' copied v₁ v₂ := by
  refine ⟨fun m hm => h.plain m (hsub hm), ⟨h₁.here.trans h.refilled.here, fun l hl => ?_,
    fun m => ?_⟩, ⟨h₂.here.trans (h.alike.here.trans h₁.here.symm), fun l hl => ?_, fun m => ?_⟩⟩
  · rw [h₁.outside hl]
    exact h.refilled.outside l hl
  · by_cases hmn : m = n
    · rw [hmn, h₁.at?_self]
      exact .inr ⟨hdir, hr⟩
    · rw [h₁.at?_of_ne (by simpa using hmn)]
      exact h.refilled.inside m
  · rw [h₁.outside hl, h₂.outside hl]
    exact h.alike.outside l hl
  · by_cases hmn : m = n
    · rw [hmn, h₁.at?_self, h₂.at?_self]
      exact .inl hm
    · rw [h₁.at?_of_ne (by simpa using hmn), h₂.at?_of_ne (by simpa using hmn)]
      rcases h.alike.inside m with hm | ⟨hmem, hplain⟩
      · exact .inl hm
      · exact .inr ⟨hown m hmem hmn, hplain⟩

/-- A file elsewhere is written in both trees, and one of the names does not set them apart. -/
theorem Paired.set_outside (h : Paired t d own copied u₁ u₂) (hsub : own' ⊆ own)
    (hown : ∀ m ∈ own, m ≠ n → m ∈ own') (hsame : u₂.at? (n :: d) = u₁.at? (n :: d))
    (hout : Outside d l) (hf : IsFile (t.at? l)) (ho : IsFile o) (h₁ : u₁.Sets l o v₁)
    (h₂ : u₂.Sets l o v₂) : Paired t d own' copied v₁ v₂ := by
  have hne : ∀ m, m :: d ≠ l := fun m hm => hout m hm.symm
  refine ⟨fun m hm => h.plain m (hsub hm), ⟨h₁.here.trans h.refilled.here, fun m hm => ?_,
    fun m => ?_⟩, ⟨h₂.here.trans (h.alike.here.trans h₁.here.symm), fun m hm => ?_, fun m => ?_⟩⟩
  · by_cases hml : m = l
    · rw [hml, h₁.at?_self]
      exact .inr ⟨hf, ho⟩
    · rw [h₁.at?_of_ne hml]
      exact h.refilled.outside m hm
  · rw [h₁.at?_of_ne (hne m)]
    exact h.refilled.inside m
  · by_cases hml : m = l
    · rw [hml, h₁.at?_self, h₂.at?_self]
    · rw [h₁.at?_of_ne hml, h₂.at?_of_ne hml]
      exact h.alike.outside m hm
  · rw [h₁.at?_of_ne (hne m), h₂.at?_of_ne (hne m)]
    by_cases hmn : m = n
    · exact .inl (.inl (hmn ▸ hsame))
    · rcases h.alike.inside m with hm | ⟨hmem, hplain⟩
      · exact .inl hm
      · exact .inr ⟨hown m hmem hmn, hplain⟩

/-! The way to the directory. -/

theorem walk_tooLong (hn : IsName n) (hlong : nameLimit < Text.byteSize n) :
    walk t aim k d [n] = .error .nameTooLong := by
  rw [walk_eq]
  simp [walkNames, hn.ne_nil, hn.ne_here, hn.ne_up, hlong]

/-- What a path gives in both trees, whatever it is used for: it fails, or it comes to a name in
the directory. -/
theorem Paired.locate_join (h : Paired t d own copied u₁ u₂) (hroot : t.LeadsTo k root d)
    (hn : IsName name) :
    (∃ e, ∀ aim, u₁.locate aim (join root name) = .error e ∧
      u₂.locate aim (join root name) = .error e) ∨
    Storable name ∧ ∃ j, ∀ aim, u₁.locate aim (join root name) = walk u₁ aim j d [name] ∧
      u₂.locate aim (join root name) = walk u₂ aim j d [name] := by
  obtain ⟨hstart₁, hstart₂⟩ := h.start_eq root
  unfold locate
  rw [start_join u₁ hn, start_join u₂ hn, hstart₁, hstart₂]
  cases hchecked : checkedNames (join root name) with
  | error e => exact .inl ⟨e, fun _ => ⟨rfl, rfl⟩⟩
  | ok xs =>
      obtain rfl := checkedNames_eq_ok hchecked
      simp only [names_join root hn.no_slash]
      rcases h.way hroot hn linkLimit with herror | ⟨j, hj⟩
      · exact .inl herror
      · by_cases hshort : Text.byteSize name ≤ nameLimit
        · exact .inr ⟨⟨hn, hshort⟩, j, hj⟩
        · refine .inl ⟨.nameTooLong, fun aim => ?_⟩
          obtain ⟨h₁, h₂⟩ := hj aim
          rw [h₁, h₂, walk_tooLong hn (Nat.not_le.mp hshort), walk_tooLong hn (Nat.not_le.mp hshort)]
          exact ⟨rfl, rfl⟩

/-- A path to a name in the directory leads nowhere in both trees, or the name is free in both. -/
def Cleared (root : Path) (d : Location) (name : Text) (u₁ u₂ : FileTree) : Prop :=
  (∃ e, ∀ aim, u₁.locate aim (join root name) = .error e ∧
    u₂.locate aim (join root name) = .error e) ∨
  u₁.at? (name :: d) = none ∧ u₂.at? (name :: d) = none

theorem Paired.locate_cleared (h : Paired t d own copied u₁ u₂) (hroot : t.LeadsTo k root d)
    (hn : IsName name) (hcleared : Cleared root d name u₁ u₂) :
    (∃ e, ∀ aim, u₁.locate aim (join root name) = .error e ∧
      u₂.locate aim (join root name) = .error e) ∨
    u₁.at? (name :: d) = none ∧ u₂.at? (name :: d) = none ∧
      ∀ aim, u₁.locate aim (join root name) = .ok (.absent d name false) ∧
        u₂.locate aim (join root name) = .ok (.absent d name false) := by
  rcases hcleared with herror | ⟨free₁, free₂⟩
  · exact .inl herror
  rcases h.locate_join hroot hn with herror | ⟨hs, j, hj⟩
  · exact .inl herror
  · refine .inr ⟨free₁, free₂, fun aim => ?_⟩
    rw [(hj aim).1, (hj aim).2, walk_none hs Aim.allows_nil free₁,
      walk_none hs Aim.allows_nil free₂]
    exact ⟨rfl, rfl⟩

theorem Paired.ne_directory_of_free (h : Paired t d own copied u₁ u₂) (free : u₁.at? l = none) :
    t.at? l ≠ some .directory := by
  intro hdir
  simp [h.refilled.directory_iff.mpr hdir] at free

/-- A path leads to a regular file that is no entry of the directory. -/
def LiesOutside (t : FileTree) (d : Location) (s : Path) : Prop :=
  ∃ l, t.existing .target s = .ok l ∧ IsFile (t.at? l) ∧ Outside d l

theorem Paired.meet_path (h : Paired t d own copied u₁ u₂) (hs : LiesOutside t d s) :
    checkedNames s = .ok (names s) ∧ u₁.start s = t.start s ∧ u₂.start s = t.start s ∧
      Meet d copied u₁ u₂ linkLimit (t.start s) (names s) := by
  obtain ⟨l, hl, hf, hout⟩ := hs
  obtain ⟨hchecked, hr⟩ := existing_ok_iff.mp hl
  obtain ⟨hstart₁, hstart₂⟩ := h.start_eq s
  exact ⟨hchecked, hstart₁, hstart₂, h.meet hr hf hout linkLimit⟩

theorem pathNames_of_checked (h : checkedNames p = .ok (names p)) :
    pathNames p = .ok (names p) := by
  unfold checkedNames at h
  split at h
  · cases h
  · rename_i xs hxs
    rw [hxs, pathNames_eq_ok hxs]

/-- A source elsewhere has one path without links in both trees. -/
theorem Paired.canonical (h : Paired t d own copied u₁ u₂) (hs : LiesOutside t d s) :
    u₂.canonical s = u₁.canonical s ∧ ∀ q, u₁.canonical s = .ok q →
      ∃ l, q = pathOf l ∧ EndsAt d copied u₁ u₂ l ∧
        u₁.Resolves .target linkLimit (t.start s) (names s) (.found l) := by
  obtain ⟨hchecked, hstart₁, hstart₂, hwalk, hends⟩ := h.meet_path hs
  unfold FileTree.canonical
  rw [pathNames_of_checked hchecked, hstart₁, hstart₂]
  dsimp only
  rw [hwalk]
  refine ⟨rfl, fun q hq => ?_⟩
  split at hq
  · cases hq
  · cases hq
  · rename_i l hl
    split at hq
    · cases hq
    · exact ⟨l, (Except.ok.inj hq).symm, hends l hl,
        resolves_of_walk (fun _ => no_slash_of_mem_names) hl⟩

/-- A source elsewhere reads the same in both trees. -/
theorem Paired.regularFile (h : Paired t d own copied u₁ u₂) (hs : LiesOutside t d s) :
    (∃ e, u₁.regularFile s = .error e ∧ u₂.regularFile s = .error e) ∨
    ∃ content mode mode', u₁.regularFile s = .ok (content, mode) ∧
      u₂.regularFile s = .ok (content, mode') := by
  obtain ⟨hchecked, hstart₁, hstart₂, hwalk, hends⟩ := h.meet_path hs
  unfold FileTree.regularFile status existing locate
  rw [hchecked, hstart₁, hstart₂]
  dsimp only
  rw [hwalk]
  rcases hr : walk u₁ .target linkLimit (t.start s) (names s) with e | l | ⟨dir, n, slash⟩
  · exact .inl ⟨e, rfl, rfl⟩
  · obtain ⟨⟨content, mode, hf⟩, hm, -⟩ := hends l hr
    rcases hm with he | ⟨content', mode, mode', h₁, h₂⟩
    · exact .inr ⟨content, mode, mode, by simp [hf], by simp [he, hf]⟩
    · exact .inr ⟨content', mode, mode', by simp [h₁], by simp [h₂]⟩
  · exact .inl ⟨.notFound, rfl, rfl⟩

end FileTree

namespace Staging

open FileTree FileOp Horizon.Path

variable {t u u₁ u₂ : FileTree} {k : Nat} {d : Location} {name : Text} {root p s : Path}
  {own : List Text} {copied : Prop} {sources : List Path}

theorem clear_of_error {e : FileError} (h : u.locate .entry p = .error e) :
    clear p u = if e = .notFound then (.ok (), u) else (.error e, u) := by
  have hstatus : u.status .entry p = .error e := by simp [status, existing, h]
  rw [clear_apply, hstatus]
  cases e <;> rfl

theorem clear_of_lookup (h : u.locate .entry p = .ok (u.lookup d name))
    (hdir : u.at? (name :: d) ≠ some .directory) :
    ∃ v, clear p u = (.ok (), v) ∧ u.Sets (name :: d) none v := by
  cases he : u.at? (name :: d) with
  | none =>
      refine ⟨u, ?_, sets_self he⟩
      rw [clear_apply, status_entry_of_locate h, he]
      rfl
  | some e =>
      exact ⟨_, clear_of_locate h he fun hne => hdir (hne ▸ he), sets_erase (List.cons_ne_nil _ _)⟩

theorem clear_of_directory (h : u.locate .entry p = .ok (u.lookup d name))
    (hdir : u.at? (name :: d) = some .directory) :
    clear p u = (.error (.targetIsDirectory p), u) := by
  rw [clear_apply, status_entry_of_locate h, hdir]
  rfl

theorem together_clear (hroot : t.LeadsTo k root d) (hn : IsName name) :
    Together (Paired t d own copied) (clear (join root name)) fun _ u₁ u₂ =>
      Paired t d own copied u₁ u₂ ∧ Cleared root d name u₁ u₂ := by
  intro u₁ u₂ h
  rcases h.locate_join hroot hn with ⟨e, he⟩ | ⟨hs, j, hj⟩
  · rw [clear_of_error (he .entry).1, clear_of_error (he .entry).2]
    split
    · exact ⟨rfl, fun _ _ => ⟨h, .inl ⟨e, he⟩⟩⟩
    · exact ⟨rfl, nofun⟩
  · have hlookup : ∀ u : FileTree, walk u .entry j d [name] = .ok (u.lookup d name) :=
      fun u => ((resolves_entry_iff hs).mpr rfl).walk
    have hl₁ := (hj .entry).1.trans (hlookup u₁)
    have hl₂ := (hj .entry).2.trans (hlookup u₂)
    by_cases hdir : t.at? (name :: d) = some .directory
    · obtain ⟨h₁, h₂⟩ := h.directory hdir
      rw [clear_of_directory hl₁ h₁, clear_of_directory hl₂ h₂]
      exact ⟨rfl, nofun⟩
    · have hdir₁ := fun h₁ => hdir (h.refilled.directory_iff.mp h₁)
      have hdir₂ := fun h₂ => hdir₁ (h.alike.directory_iff.mp h₂)
      obtain ⟨v₁, hc₁, hv₁⟩ := clear_of_lookup hl₁ hdir₁
      obtain ⟨v₂, hc₂, hv₂⟩ := clear_of_lookup hl₂ hdir₂
      rw [hc₁, hc₂]
      refine ⟨rfl, fun _ _ => ⟨?_, .inr ⟨hv₁.at?_self, hv₂.at?_self⟩⟩⟩
      exact h.set (List.Subset.refl own) (fun m hm _ => hm) hdir .none (.refl none) hv₁ hv₂

/-- Why a link is refused for its paths alone. -/
def linkRefusal (target p : Path) : Option FileError :=
  if target.contains (Char.ofNat 0) || p.contains (Char.ofNat 0) then some .nulInPath
  else if target.isEmpty then some .notFound
  else if pathLimit ≤ Text.byteSize target then some .nameTooLong
  else none

theorem makeLink_join (hn : IsName name) (q : Path) (u : FileTree) :
    makeLink q (join root name) u =
      match linkRefusal q (join root name) with
      | some e => (.error e, u)
      | none =>
          match u.locate .entry (join root name) with
          | .error e => (.error e, u)
          | .ok (.found _) => (.error .alreadyExists, u)
          | .ok (.absent dir n _) => (.ok (), u.put (n :: dir) (.link q)) := by
  have hlast : (names (join root name)).getLast?.any List.isEmpty = false := by
    rw [names_join root hn.no_slash]
    simp [hn.ne_nil]
  unfold makeLink change linkRefusal locate
  by_cases hnul : (q.contains (Char.ofNat 0) || (join root name).contains (Char.ofNat 0)) = true
  · simp only [hnul, if_true]
  by_cases hempty : q.isEmpty = true
  · simp only [hnul, hempty, if_true, if_false, Bool.false_eq_true]
  by_cases hlong : pathLimit ≤ Text.byteSize q
  · simp only [hnul, hempty, hlong, if_true, if_false, Bool.false_eq_true]
  simp only [hnul, hempty, hlong, if_false, Bool.false_eq_true]
  cases hchecked : checkedNames (join root name) with
  | error e => rfl
  | ok xs =>
      obtain rfl := checkedNames_eq_ok hchecked
      dsimp only
      rw [withoutSlashes_names_join hn]
      rcases walk u .entry linkLimit (u.start (join root name)) (names (join root name)) with
        e | l | ⟨dir, n, slash⟩
      · rfl
      · rfl
      · simp [hlast]

theorem together_link (hroot : t.LeadsTo k root d) (hhere : t.Opens t.here)
    (hs : LiesOutside t d s) (hn : IsName name) :
    Together (fun u₁ u₂ => Paired t d own False u₁ u₂ ∧ Cleared root d name u₁ u₂)
      (link s (join root name)) fun _ => Paired t d own False := by
  refine .bind (S := fun q u₁ u₂ => Paired t d own False u₁ u₂ ∧ Cleared root d name u₁ u₂ ∧
    ∃ n d', q = pathOf (n :: d') ∧ Anchored t d n d') (together_ask ?_) fun q => ?_
  · rintro u₁ u₂ ⟨h, hcleared⟩
    obtain ⟨hsame, hends⟩ := h.canonical hs
    refine ⟨hsame, fun q hq => ⟨h, hcleared, ?_⟩⟩
    obtain ⟨l, rfl, hend, hr⟩ := hends q hq
    have hopens : t.Opens (t.start s) := by
      unfold start
      split
      · trivial
      · exact hhere
    obtain rfl | ⟨n, d', rfl, hn, hd'⟩ := hr.opens (h.opens hopens).1
    · exact absurd hend.isFile (not_isFile (e := .directory) nofun)
    · have hout : Outside d (n :: d') := by simpa using hend.outside
      exact ⟨n, d', rfl, hn, (opens_congr fun _ => h.refilled.directory_iff).mp hd',
        (h.refilled.isFile_iff hout).mp hend.isFile, hout⟩
  · rintro u₁ u₂ ⟨h, hcleared, n, d', rfl, hanchored⟩
    rw [makeLink_join hn, makeLink_join hn]
    cases linkRefusal (pathOf (n :: d')) (join root name) with
    | some e => exact ⟨rfl, nofun⟩
    | none =>
        rcases h.locate_cleared hroot hn hcleared with ⟨e, he⟩ | ⟨free₁, free₂, hl⟩
        · obtain ⟨he₁, he₂⟩ := he .entry
          rw [he₁, he₂]
          exact ⟨rfl, nofun⟩
        · obtain ⟨hl₁, hl₂⟩ := hl .entry
          rw [hl₁, hl₂]
          refine ⟨rfl, fun _ _ => ?_⟩
          exact h.set (List.Subset.refl own) (fun m hm _ => hm) (h.ne_directory_of_free free₁)
            (.link hanchored) (.refl _) (sets_put (List.cons_ne_nil name d) _)
            (sets_put (List.cons_ne_nil name d) _)

theorem copy_apply (s p : Path) (u : FileTree) :
    copy s p u =
      match u.regularFile s with
      | .error e => (.error e, u)
      | .ok file =>
          match openForWriting p file.2 u with
          | (.error e, v) => (.error e, v)
          | (.ok l, v) => (.ok (), v.put l (.file file.1 file.2)) := by
  unfold copy
  rw [bind_apply, ask]
  cases u.regularFile s with
  | error e => rfl
  | ok file =>
      dsimp only
      rw [bind_apply]
      rcases openForWriting p file.2 u with ⟨e | l, v⟩ <;> rfl

theorem together_copy (hroot : t.LeadsTo k root d) (hs : LiesOutside t d s) (hn : IsName name) :
    Together (fun u₁ u₂ => Paired t d own True u₁ u₂ ∧ Cleared root d name u₁ u₂)
      (copy s (join root name)) fun _ => Paired t d own True := by
  rintro u₁ u₂ ⟨h, hcleared⟩
  rw [copy_apply, copy_apply]
  rcases h.regularFile hs with ⟨e, he₁, he₂⟩ | ⟨content, mode, mode', hf₁, hf₂⟩
  · rw [he₁, he₂]
    exact ⟨rfl, nofun⟩
  rw [hf₁, hf₂]
  dsimp only
  rcases h.locate_cleared hroot hn hcleared with ⟨e, he⟩ | ⟨free₁, free₂, hl⟩
  · obtain ⟨he₁, he₂⟩ := he .file
    rw [openForWriting_of_error he₁, openForWriting_of_error he₂]
    exact ⟨rfl, nofun⟩
  · obtain ⟨hl₁, hl₂⟩ := hl .file
    rw [openForWriting_of_absent hl₁, openForWriting_of_absent hl₂]
    have hne := List.cons_ne_nil name d
    refine ⟨rfl, fun _ _ => ?_⟩
    exact h.set (List.Subset.refl own) (fun m hm _ => hm) (h.ne_directory_of_free free₁)
      (.file trivial ⟨content, mode, rfl⟩) (.inr ⟨content, mode, mode', rfl, rfl⟩)
      ((sets_put hne _).trans (sets_put hne _)) ((sets_put hne _).trans (sets_put hne _))

/-! All the files. -/

/-- What an operation does to a source and a free name, it does to both trees. -/
def PutsTogether (t : FileTree) (root : Path) (d : Location) (own : List Text) (copied : Prop)
    (put : Path → Path → FileOp Unit) : Prop :=
  ∀ {s : Path} {name : Text}, LiesOutside t d s → IsName name →
    Together (fun u₁ u₂ => Paired t d own copied u₁ u₂ ∧ Cleared root d name u₁ u₂)
      (put s (join root name)) fun _ => Paired t d own copied

theorem together_place {put : Path → Path → FileOp Unit} (hroot : t.LeadsTo k root d)
    (hput : PutsTogether t root d own copied put) (hs : LiesOutside t d s) :
    Together (Paired t d own copied) (place put root s) fun _ => Paired t d own copied := by
  have htarget : Together (Paired t d own copied) (ask fun _ => target root s) fun p u₁ u₂ =>
      Paired t d own copied u₁ u₂ ∧ target root s = .ok p :=
    together_ask fun _ _ h => ⟨rfl, fun _ hp => ⟨h, hp⟩⟩
  refine htarget.bind fun p => ?_
  rintro u₁ u₂ ⟨h, hp⟩
  obtain ⟨name, hname, rfl⟩ := target_ok_iff.mp hp
  have hn := isName_of_fileName? hname
  refine Together.bind (together_clear hroot hn) (fun _ => ?_) u₁ u₂ h
  exact (hput hs hn).bind fun _ => together_pure _ fun _ _ h => h

theorem together_placeAll {put : Path → Path → FileOp Unit} (hroot : t.LeadsTo k root d)
    (hput : PutsTogether t root d own copied put) (hs : ∀ s ∈ sources, LiesOutside t d s) :
    Together (Paired t d own copied) (placeAll put root sources) fun _ =>
      Paired t d own copied := by
  induction sources with
  | nil => exact together_pure _ fun _ _ h => h
  | cons s sources ih =>
      rw [List.forall_mem_cons] at hs
      refine (together_place hroot hput hs.1).bind fun p => ?_
      exact (ih hs.2).bind fun ps => together_pure _ fun _ _ h => h

theorem paired_copied (h : Paired t d own False u₁ u₂) : Paired t d own True u₁ u₂ := by
  refine ⟨h.plain, ⟨h.refilled.here, h.refilled.outside, fun n => ?_⟩, h.alike⟩
  refine (h.refilled.inside n).imp_right fun ⟨hdir, hr⟩ => ⟨hdir, ?_⟩
  generalize u₁.at? (n :: d) = o at hr
  cases hr with
  | none => exact .none
  | link hanchored => exact .link hanchored
  | file hcopied => exact hcopied.elim

/-- What making the directory gives is the same in both trees, and it leaves trees that are set
apart by the query's own files only. -/
def PreparedAlike (t : FileTree) (root : Path) (d : Location) (own : List Text)
    (u₁ u₂ : FileTree) : Prop :=
  ∃ r v₁ v₂, makeDirectories root u₁ = (r, v₁) ∧ makeDirectories root u₂ = (r, v₂) ∧
    Paired t d own False v₁ v₂

theorem together_stage {links copies : List Path} (hroot : t.LeadsTo k root d)
    (hhere : t.Opens t.here) (hs : ∀ s ∈ links ++ copies, LiesOutside t d s) :
    Together (PreparedAlike t root d own) (stage root links copies) fun staged u₁ u₂ =>
      staged.path = root ∧ Paired t d own True u₁ u₂ := by
  have hmake : Together (PreparedAlike t root d own) (makeDirectories root) fun _ =>
      Paired t d own False := by
    rintro u₁ u₂ ⟨r, v₁, v₂, h₁, h₂, h⟩
    rw [h₁, h₂]
    exact ⟨rfl, fun _ _ => h⟩
  rw [List.forall_mem_append] at hs
  refine hmake.bind fun _ => ?_
  refine (together_placeAll hroot (together_link hroot hhere) hs.1).bind fun ps => ?_
  refine Together.mono (R := Paired t d own True) ?_ fun _ _ => paired_copied
  refine (together_placeAll hroot (together_copy hroot) hs.2).bind fun qs => ?_
  exact together_pure _ fun _ _ h => ⟨rfl, h⟩

end Staging
end Horizon
