import Horizon.FileTree.Operation
import Horizon.Proofs.PathResolution

/-!
What operations on a file tree leave behind. A sequence succeeds when each of its parts does,
from the tree that the one before has left. Making directories takes nothing away, whether it
succeeds or not; a link or a copy that is made by the path of a directory and a name stands in
the directory that the path leads to.
-/

namespace Horizon
namespace FileOp

variable {α β : Type} {t u : FileTree} {e : FileError}

theorem pure_apply (a : α) (t : FileTree) : (pure a : FileOp α) t = (.ok a, t) := rfl

theorem bind_apply (x : FileOp α) (f : α → FileOp β) (t : FileTree) :
    (x >>= f) t =
      match x t with
      | (.ok a, s) => f a s
      | (.error e, s) => (.error e, s) := by
  have hbind : (x >>= f) t = ExceptT.bindCont f (x t).1 (x t).2 := rfl
  rw [hbind]
  rcases x t with ⟨_ | a, s⟩ <;> rfl

/-- A sequence succeeds when both parts do, the second from the tree that the first leaves. -/
theorem bind_ok_iff {x : FileOp α} {f : α → FileOp β} {b : β} :
    (x >>= f) t = (.ok b, u) ↔ ∃ a s, x t = (.ok a, s) ∧ f a s = (.ok b, u) := by
  rw [bind_apply]
  rcases x t with ⟨_ | a, s⟩
  · constructor
    · intro h
      cases h
    · rintro ⟨a, s, h, -⟩
      cases h
  · constructor
    · intro h
      exact ⟨a, s, rfl, h⟩
    · rintro ⟨a, s, h, h'⟩
      cases h
      exact h'

theorem tryCatch_apply (x : FileOp α) (f : FileError → FileOp α) (t : FileTree) :
    tryCatch x f t =
      match x t with
      | (.ok a, s) => (.ok a, s)
      | (.error e, s) => f e s := by
  change ExceptT.tryCatch x f t = _
  simp only [ExceptT.tryCatch, ExceptT.mk, bind, StateT.bind]
  rcases x t with ⟨_ | a, s⟩ <;> rfl

theorem tryCatch_ok_iff {x : FileOp α} {f : FileError → FileOp α} {a : α} :
    tryCatch x f t = (.ok a, u) ↔
      x t = (.ok a, u) ∨ ∃ e s, x t = (.error e, s) ∧ f e s = (.ok a, u) := by
  rw [tryCatch_apply]
  rcases x t with ⟨e | b, s⟩
  · constructor
    · intro h
      exact .inr ⟨e, s, rfl, h⟩
    · rintro (h | ⟨e', s', h, h'⟩) <;> cases h
      exact h'
  · constructor
    · intro h
      exact .inl h
    · rintro (h | ⟨e', s', h, -⟩) <;> cases h
      rfl

theorem ask_ok_iff {question : FileTree → Except FileError α} {a : α} :
    ask question t = (.ok a, u) ↔ question t = .ok a ∧ t = u :=
  Prod.ext_iff

theorem change_ok_iff {f : FileTree → Except FileError (α × FileTree)} {a : α} :
    change f t = (.ok a, u) ↔ f t = .ok (a, u) := by
  unfold change
  rcases f t with _ | ⟨b, s⟩
  · constructor <;> intro h <;> cases h
  · constructor <;> intro h <;> cases h <;> rfl

/-- A sequence fails when its first part does, or the second from the tree that the first
leaves. -/
theorem bind_error_iff {x : FileOp α} {f : α → FileOp β} :
    (x >>= f) t = (.error e, u) ↔
      x t = (.error e, u) ∨ ∃ a s, x t = (.ok a, s) ∧ f a s = (.error e, u) := by
  rw [bind_apply]
  rcases x t with ⟨e' | a, s⟩
  · constructor
    · intro h
      cases h
      exact .inl rfl
    · rintro (h | ⟨a, s, h, -⟩) <;> cases h
      rfl
  · constructor
    · intro h
      exact .inr ⟨a, s, rfl, h⟩
    · rintro (h | ⟨a, s, h, h'⟩) <;> cases h
      exact h'

/-- An operation that fails leaves the tree as it was. -/
def AllOrNothing (op : FileOp α) : Prop := ∀ t u e, op t = (.error e, u) → u = t

theorem allOrNothing_ask (question : FileTree → Except FileError α) :
    AllOrNothing (ask question) := by
  intro t u e h
  exact (Prod.ext_iff.mp h).2.symm

theorem allOrNothing_change (f : FileTree → Except FileError (α × FileTree)) :
    AllOrNothing (change f) := by
  intro t u e h
  unfold change at h
  split at h <;> cases h
  rfl

/-- A question before an operation changes nothing. -/
theorem AllOrNothing.after_ask {question : FileTree → Except FileError α} {f : α → FileOp β}
    (hf : ∀ a, AllOrNothing (f a)) : AllOrNothing (ask question >>= f) := by
  intro t u e h
  rcases bind_error_iff.mp h with hask | ⟨a, s, hask, hrest⟩
  · exact allOrNothing_ask question t u e hask
  · obtain ⟨-, rfl⟩ := ask_ok_iff.mp hask
    exact hf a t u e hrest

/-- What cannot fail after an operation does no harm. -/
theorem AllOrNothing.bind_of_ok {x : FileOp α} {f : α → FileOp β} (hx : AllOrNothing x)
    (hf : ∀ a s, ∃ b, (f a s).1 = .ok b) : AllOrNothing (x >>= f) := by
  intro t u e h
  rcases bind_error_iff.mp h with hfirst | ⟨a, s, -, hrest⟩
  · exact hx t u e hfirst
  · obtain ⟨b, hb⟩ := hf a s
    simp [hrest] at hb

/-- Whatever comes of the operation, the tree that it is given is related to the one it leaves. -/
def Moves (r : FileTree → FileTree → Prop) (op : FileOp α) : Prop := ∀ t, r t (op t).2

section
variable {r : FileTree → FileTree → Prop}

theorem Moves.bind {x : FileOp α} {f : α → FileOp β} (trans : ∀ {t u v}, r t u → r u v → r t v)
    (hx : Moves r x) (hf : ∀ a, Moves r (f a)) : Moves r (x >>= f) := by
  intro t
  have hx := hx t
  rw [bind_apply]
  rcases hr : x t with ⟨_ | a, s⟩
  · rwa [hr] at hx
  · rw [hr] at hx
    exact trans hx (hf a s)

theorem Moves.tryCatch {x : FileOp α} {f : FileError → FileOp α}
    (trans : ∀ {t u v}, r t u → r u v → r t v) (hx : Moves r x) (hf : ∀ e, Moves r (f e)) :
    Moves r (tryCatch x f) := by
  intro t
  have hx := hx t
  rw [tryCatch_apply]
  rcases hr : x t with ⟨e | a, s⟩
  · rw [hr] at hx
    exact trans hx (hf e s)
  · rwa [hr] at hx

theorem moves_change {f : FileTree → Except FileError (α × FileTree)} (refl : ∀ t, r t t)
    (hf : ∀ t a u, f t = .ok (a, u) → r t u) : Moves r (change f) := by
  intro t
  unfold change
  split
  · exact refl t
  · rename_i a u hu
    exact hf t a u hu

end

end FileOp

namespace FileTree

open Horizon.Path FileOp

variable {α β : Type} {t u v : FileTree} {l : Location} {o : Option Entry}

/-! Changes at one location. -/

/-- `u` has `o` at a location, and everything else as `t` has it. -/
structure Sets (t : FileTree) (l : Location) (o : Option Entry) (u : FileTree) : Prop where
  here : u.here = t.here
  at?_eq : ∀ m, u.at? m = if m = l then o else t.at? m

theorem sets_put (hl : l ≠ []) (e : Entry) : t.Sets l (some e) (t.put l e) :=
  ⟨rfl, fun _ => at?_put hl⟩

theorem sets_erase (hl : l ≠ []) : t.Sets l none (t.erase l) := ⟨rfl, fun _ => at?_erase hl⟩

theorem sets_self (h : t.at? l = o) : t.Sets l o t := by
  refine ⟨rfl, fun m => ?_⟩
  split
  · rename_i hm
    rw [hm, h]
  · rfl

theorem Sets.at?_self (h : t.Sets l o u) : u.at? l = o := by rw [h.at?_eq, if_pos rfl]

theorem Sets.at?_of_ne (h : t.Sets l o u) {m : Location} (hm : m ≠ l) : u.at? m = t.at? m := by
  rw [h.at?_eq, if_neg hm]

theorem Sets.trans {o' : Option Entry} (h : t.Sets l o u) (h' : u.Sets l o' v) :
    t.Sets l o' v := by
  refine ⟨h'.here.trans h.here, fun m => ?_⟩
  rw [h'.at?_eq, h.at?_eq]
  split <;> rfl

/-- A tree that has nothing at the location is not concerned. -/
theorem Sets.within {base : FileTree} (h : t.Sets l o u) (w : base.Within t)
    (hl : base.at? l = none) : base.Within u := by
  refine ⟨h.here.trans w.here, fun m e he => ?_⟩
  have hm : m ≠ l := by
    rintro rfl
    simp [hl] at he
  rw [h.at?_of_ne hm]
  exact w.keeps m e he

theorem Sets.within_of_none (h : t.Sets l none u) : u.Within t := by
  refine ⟨h.here.symm, fun m e he => ?_⟩
  by_cases hm : m = l
  · subst hm
    simp [h.at?_self] at he
  · rwa [← h.at?_of_ne hm]

/-! Files that are found. -/

section
variable {aim : Aim} {p : Path} {e : Entry}

theorem pathNames_eq_ok {xs : List Text} (h : pathNames p = .ok xs) : xs = names p := by
  unfold pathNames at h
  grind

theorem checkedNames_eq_ok {xs : List Text} (h : checkedNames p = .ok xs) : xs = names p := by
  unfold checkedNames at h
  split at h
  · cases h
  rename_i ys hys
  obtain rfl := pathNames_eq_ok hys
  split at h
  · cases h
  · exact (Except.ok.inj h).symm

theorem locate_ok_iff {place : Place} :
    t.locate aim p = .ok place ↔ checkedNames p = .ok (names p) ∧
      t.Resolves aim linkLimit (t.start p) (names p) place := by
  rw [← walk_eq_ok_iff fun _ => no_slash_of_mem_names, locate]
  cases hp : checkedNames p with
  | error e => simp
  | ok xs =>
      obtain rfl := checkedNames_eq_ok hp
      simp

theorem existing_ok_iff_locate : t.existing aim p = .ok l ↔ t.locate aim p = .ok (.found l) := by
  unfold existing
  split <;> simp_all

theorem existing_ok_iff :
    t.existing aim p = .ok l ↔ checkedNames p = .ok (names p) ∧
      t.Resolves aim linkLimit (t.start p) (names p) (.found l) :=
  existing_ok_iff_locate.trans locate_ok_iff

theorem status_ok_iff :
    t.status aim p = .ok e ↔ ∃ l, t.existing aim p = .ok l ∧ t.at? l = some e := by
  unfold status
  cases t.existing aim p with
  | error e => simp
  | ok l => cases h : t.at? l <;> simp [h]

theorem regularFile_ok_iff {file : Bytes × Bool} :
    t.regularFile p = .ok file ↔ t.status .target p = .ok (.file file.1 file.2) := by
  unfold regularFile
  split
  · simp_all
  · simp_all [Prod.ext_iff]
  · rename_i e hfile he
    simp only [reduceCtorEq, he, Except.ok.injEq, false_iff]
    exact hfile _ _

theorem isDirectoryAt_iff :
    t.isDirectoryAt p = true ↔ t.status .target p = .ok .directory := by
  unfold isDirectoryAt
  cases t.status .target p with
  | error e => simp
  | ok e => cases e <;> simp [Entry.isDirectory]

theorem existing_mono (w : t.Within u) (h : t.existing aim p = .ok l) :
    u.existing aim p = .ok l := by
  rw [existing_ok_iff] at h ⊢
  rw [w.start_eq]
  exact ⟨h.1, h.2.mono w⟩

theorem status_mono (w : t.Within u) (h : t.status aim p = .ok e) : u.status aim p = .ok e := by
  obtain ⟨l, hl, he⟩ := status_ok_iff.mp h
  exact status_ok_iff.mpr ⟨l, existing_mono w hl, w.keeps l e he⟩

theorem regularFile_mono {file : Bytes × Bool} (w : t.Within u) (h : t.regularFile p = .ok file) :
    u.regularFile p = .ok file :=
  regularFile_ok_iff.mpr (status_mono w (regularFile_ok_iff.mp h))

theorem readBytes_of_regularFile {file : Bytes × Bool} (h : t.regularFile p = .ok file) :
    t.readBytes p = .ok file.1 := by
  rw [readBytes, regularFile_ok_iff.mp h]

theorem existing_of_canonical {q : Path} (hp : checkedNames p = .ok (names p))
    (hq : t.canonical p = .ok q) : ∃ l, t.existing .target p = .ok l := by
  unfold canonical at hq
  split at hq
  · cases hq
  rename_i xs hxs
  obtain rfl := pathNames_eq_ok hxs
  split at hq
  · cases hq
  · cases hq
  rename_i l hwalk
  exact ⟨l, existing_ok_iff.mpr ⟨hp, resolves_of_walk (fun _ => no_slash_of_mem_names) hwalk⟩⟩

theorem canonical_of_existing {q : Path} (h : t.existing .target p = .ok l)
    (hq : t.canonical p = .ok q) : q = pathOf l := by
  have hwalk := (existing_ok_iff.mp h).2.walk
  unfold canonical at hq
  split at hq
  · cases hq
  rename_i xs hxs
  rw [pathNames_eq_ok hxs, hwalk] at hq
  simp only at hq
  split at hq
  · cases hq
  · exact (Except.ok.inj hq).symm

end

/-! Making directories. -/

theorem unlessDirectory_apply (p : Path) (e : FileError) (t : FileTree) :
    (do if (← get).isDirectoryAt p then return () else throw e : FileOp Unit) t =
      (if t.isDirectoryAt p then .ok () else .error e, t) := by
  have hget : (get : FileOp FileTree) t = (.ok t, t) := rfl
  rw [bind_apply, hget]
  dsimp only
  split <;> rfl

/-- `u` is `t` with directories in places where `t` has nothing. -/
structure Extended (t u : FileTree) : Prop where
  here : u.here = t.here
  at?_eq : ∀ l, u.at? l = t.at? l ∨ t.at? l = none ∧ u.at? l = some .directory

theorem Extended.refl (t : FileTree) : t.Extended t := ⟨rfl, fun _ => .inl rfl⟩

theorem Extended.trans (h : t.Extended u) (h' : u.Extended v) : t.Extended v := by
  refine ⟨h'.here.trans h.here, fun l => ?_⟩
  rcases h.at?_eq l with hl | ⟨hfree, hnew⟩
  · rw [← hl]
    exact h'.at?_eq l
  · rcases h'.at?_eq l with hl | ⟨hnone, -⟩
    · exact .inr ⟨hfree, hl.trans hnew⟩
    · simp [hnew] at hnone

theorem Extended.within (h : t.Extended u) : t.Within u := by
  refine ⟨h.here, fun l e he => ?_⟩
  rcases h.at?_eq l with hl | ⟨hfree, -⟩
  · rwa [hl]
  · simp [he] at hfree

/-- Whatever comes of the operation, it does no more than add directories. -/
def Extends (op : FileOp α) : Prop := ∀ t : FileTree, t.Extended (op t).2

/-- Whatever comes of the operation, it takes nothing away. -/
def Grows (op : FileOp α) : Prop := ∀ t : FileTree, t.Within (op t).2

theorem mem_of_mem_withoutSlashes {n : Text} {xs : List Text} (h : n ∈ withoutSlashes xs) :
    n ∈ xs := by
  rw [withoutSlashes, List.mem_reverse] at h
  exact List.mem_reverse.mp ((List.dropWhile_suffix _).mem h)

theorem makeDirectory_ok {p : Path} (h : makeDirectory p t = (.ok (), u)) :
    ∃ dir name slash, checkedNames p = .ok (names p) ∧
      t.Resolves .entry linkLimit (t.start p) (withoutSlashes (names p))
        (.absent dir name slash) ∧
      t.Sets (name :: dir) (some .directory) u := by
  rw [makeDirectory, change_ok_iff] at h
  split at h
  · cases h
  rename_i xs hxs
  obtain rfl := checkedNames_eq_ok hxs
  split at h
  · cases h
  · cases h
  rename_i dir name slash hwalk
  cases h
  have plain : ∀ n ∈ withoutSlashes (names p), '/' ∉ n :=
    fun n hn => no_slash_of_mem_names (mem_of_mem_withoutSlashes hn)
  exact ⟨dir, name, slash, hxs, resolves_of_walk plain hwalk, sets_put (List.cons_ne_nil _ _) _⟩

theorem extended_of_sets (free : t.at? l = none) (h : t.Sets l (some .directory) u) :
    t.Extended u := by
  refine ⟨h.here, fun m => ?_⟩
  by_cases hm : m = l
  · exact .inr ⟨hm ▸ free, hm ▸ h.at?_self⟩
  · exact .inl (h.at?_of_ne hm)

/-- The name was free, so the new directory takes the place of nothing. -/
theorem extends_makeDirectory (p : Path) : Extends (makeDirectory p) := by
  refine moves_change .refl fun t _ u h => ?_
  obtain ⟨dir, name, slash, -, hr, hset⟩ := makeDirectory_ok (change_ok_iff.mpr h)
  exact extended_of_sets hr.at?_eq_none hset

section
variable {r : FileTree → FileTree → Prop}

theorem moves_unlessDirectory (refl : ∀ t, r t t) (p : Path) (e : FileError) :
    Moves r (do if (← get).isDirectoryAt p then return () else throw e : FileOp Unit) := by
  intro t
  rw [unlessDirectory_apply]
  exact refl t

/-- What holds of every single directory that is made holds of all of them together. -/
theorem moves_makeDirectoriesBelow (refl : ∀ t, r t t)
    (trans : ∀ {t u v}, r t u → r u v → r t v) {p : Path} {parents : List Path}
    (h : ∀ q ∈ p :: parents, Moves r (makeDirectory q)) :
    Moves r (makeDirectoriesBelow p parents) := by
  have unlessThere : ∀ q ∈ p :: parents, Moves r (makeDirectoryUnlessThere q) :=
    fun q hq => (h q hq).tryCatch trans (moves_unlessDirectory refl q)
  have hp := unlessThere p List.mem_cons_self
  induction parents generalizing p with
  | nil =>
      unfold makeDirectoriesBelow
      split
      · exact refl
      · exact hp
  | cons q parents ih =>
      rw [List.forall_mem_cons] at h unlessThere
      unfold makeDirectoriesBelow
      split
      · exact refl
      · refine h.1.tryCatch trans fun e => ?_
        split
        · exact (ih h.2 unlessThere.2 (unlessThere.2 q List.mem_cons_self)).bind trans fun _ => hp
        · exact moves_unlessDirectory refl p e

end

theorem extends_makeDirectories (p : Path) : Extends (makeDirectories p) :=
  moves_makeDirectoriesBelow .refl .trans fun q _ => extends_makeDirectory q

theorem grows_makeDirectories (p : Path) : Grows (makeDirectories p) :=
  fun t => (extends_makeDirectories p t).within

/-! Entries by the path of a directory and a name. -/

section
variable {aim : Aim} {place : Place} {i k : Nat} {root : Path} {name : Text} {d : Location}

/-- A name in a directory by a path that the system takes. -/
structure Accepted (root : Path) (name : Text) : Prop extends Storable name where
  checked : checkedNames (join root name) = .ok (names (join root name))

theorem of_locate_join (hn : IsName name) (h : t.locate aim (join root name) = .ok place) :
    Accepted root name ∧
      ∃ i j d, i + j = linkLimit ∧ t.LeadsTo i root d ∧ t.Resolves aim j d [name] place := by
  unfold locate at h
  split at h
  · cases h
  rename_i xs hxs
  obtain rfl := checkedNames_eq_ok hxs
  obtain ⟨i, j, d, hij, hl, hr⟩ := exists_leadsTo hn h
  exact ⟨⟨hr.storable hn, hxs⟩, i, j, d, hij, hl, hr⟩

theorem LeadsTo.locate_join (h : t.LeadsTo i root d) (hi : i ≤ linkLimit)
    (ha : Accepted root name) (hr : t.Resolves aim (linkLimit - i) d [name] place) :
    t.locate aim (join root name) = .ok place := by
  have hwalk := LeadsTo.walk_join h ha.toIsName hr
  rw [Nat.add_sub_cancel' hi] at hwalk
  rw [locate, ha.checked]
  exact hwalk

theorem LeadsTo.locate_entry (h : t.LeadsTo i root d) (hi : i ≤ linkLimit)
    (ha : Accepted root name) : t.locate .entry (join root name) = .ok (t.lookup d name) :=
  h.locate_join hi ha ((resolves_entry_iff ha.toStorable).mpr rfl)

theorem existing_entry_of_locate {p : Path} (h : t.locate .entry p = .ok (t.lookup d name)) :
    t.existing .entry p =
      if (t.at? (name :: d)).isSome then .ok (name :: d) else .error .notFound := by
  rw [existing, h, lookup]
  split
  · contradiction
  · split <;> simp_all
  · split <;> simp_all

theorem status_entry_of_locate {p : Path} (h : t.locate .entry p = .ok (t.lookup d name)) :
    t.status .entry p = (t.at? (name :: d)).elim (.error .notFound) .ok := by
  rw [status, existing_entry_of_locate h]
  cases he : t.at? (name :: d) <;> simp [he]

theorem LeadsTo.existing_entry (h : t.LeadsTo i root d) (hi : i ≤ linkLimit)
    (ha : Accepted root name) :
    t.existing .entry (join root name) =
      if (t.at? (name :: d)).isSome then .ok (name :: d) else .error .notFound :=
  existing_entry_of_locate (h.locate_entry hi ha)

theorem LeadsTo.status_entry (h : t.LeadsTo i root d) (hi : i ≤ linkLimit)
    (ha : Accepted root name) :
    t.status .entry (join root name) = (t.at? (name :: d)).elim (.error .notFound) .ok :=
  status_entry_of_locate (h.locate_entry hi ha)

theorem remove_ok {p : Path} (h : remove p t = (.ok (), u)) :
    ∃ l, t.existing .entry p = .ok l ∧ t.Sets l none u := by
  rw [remove, change_ok_iff] at h
  split at h
  · cases h
  rename_i l hl
  split at h
  · cases h
  · rename_i e hdir he
    cases h
    refine ⟨l, hl, sets_erase ?_⟩
    rintro rfl
    exact hdir (Option.some.inj he).symm
  · cases h

/-- From `t` to `u` an entry has been made by a path: the name is looked for in the directory
that the path leads to, and it has the entry there afterwards if it was free. -/
def Enters (t : FileTree) (root : Path) (name : Text) (e : Entry) (u : FileTree) : Prop :=
  Accepted root name ∧ ∃ i d, i ≤ linkLimit ∧ t.LeadsTo i root d ∧
    (t.at? (name :: d) = none → t.Sets (name :: d) (some e) u)

theorem withoutSlashes_names_join (hn : IsName name) :
    withoutSlashes (names (join root name)) = names (join root name) := by
  rw [names_join root hn.no_slash]
  simp [withoutSlashes, hn.ne_nil]

theorem makeLink_ok {target : Path} (hn : IsName name)
    (h : makeLink target (join root name) t = (.ok (), u)) :
    t.Enters root name (.link target) u := by
  rw [makeLink, change_ok_iff] at h
  split at h
  · cases h
  split at h
  · cases h
  split at h
  · cases h
  split at h
  · cases h
  rename_i xs hxs
  split at h
  · cases h
  · cases h
  rename_i dir m slash hwalk
  split at h
  · cases h
  cases h
  obtain rfl := checkedNames_eq_ok hxs
  rw [withoutSlashes_names_join hn] at hwalk
  have hlocate : t.locate .entry (join root name) = .ok (.absent dir m slash) := by
    rw [locate, hxs]
    exact hwalk
  obtain ⟨ha, i, j, d, hij, hl, hr⟩ := of_locate_join hn hlocate
  refine ⟨ha, i, d, by omega, hl, fun free => ?_⟩
  cases hr.eq_absent hn free
  exact sets_put (List.cons_ne_nil _ _) _

theorem openForWriting_ok {executable : Bool} {l : Location} (hn : IsName name)
    (h : openForWriting (join root name) executable t = (.ok l, u)) :
    Accepted root name ∧ ∃ i d, i ≤ linkLimit ∧ t.LeadsTo i root d ∧
      (t.at? (name :: d) = none → l = name :: d ∧ t.Sets l (some (.file [] executable)) u) := by
  rw [openForWriting, change_ok_iff] at h
  split at h
  · cases h
  · rename_i dir m slash hlocate
    cases h
    obtain ⟨ha, i, j, d, hij, hl, hr⟩ := of_locate_join hn hlocate
    refine ⟨ha, i, d, by omega, hl, fun free => ?_⟩
    cases hr.eq_absent hn free
    exact ⟨rfl, sets_put (List.cons_ne_nil _ _) _⟩
  · rename_i l' hlocate
    obtain ⟨ha, i, j, d, hij, hl, hr⟩ := of_locate_join hn hlocate
    exact ⟨ha, i, d, by omega, hl, fun free => nomatch hr.eq_absent hn free⟩

theorem allOrNothing_openForWriting (p : Path) (executable : Bool) :
    AllOrNothing (openForWriting p executable) :=
  allOrNothing_change _

theorem copy_ok {source : Path} (hn : IsName name)
    (h : copy source (join root name) t = (.ok (), u)) :
    ∃ file, t.regularFile source = .ok file ∧ t.Enters root name (.file file.1 file.2) u := by
  obtain ⟨file, s, hask, h⟩ := bind_ok_iff.mp h
  obtain ⟨hfile, rfl⟩ := ask_ok_iff.mp hask
  obtain ⟨l, s, hopen, hwrite⟩ := bind_ok_iff.mp h
  obtain ⟨ha, i, d, hi, hl, hset⟩ := openForWriting_ok hn hopen
  refine ⟨file, hfile, ha, i, d, hi, hl, fun free => ?_⟩
  obtain ⟨rfl, hset⟩ := hset free
  cases hwrite
  exact hset.trans (sets_put (List.cons_ne_nil name d) _)

end

end FileTree
end Horizon
