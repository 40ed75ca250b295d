import Horizon.Proofs.FileOperations

/-!
Writing to files. Only the file that a path leads to is touched, and no directory and no link
comes or goes, so every path leads where it led before. A file that has been opened for writing
is found again by its path.
-/

namespace Horizon
namespace FileTree

open Horizon.Path FileOp

variable {t u v : FileTree} {aim : Aim} {k : Nat} {dir d d' l : Location} {name : Text}
  {xs : List Text} {place : Place} {p root : Path} {executable : Bool}

/-- Where a walk ends, with the missing name if there is one. -/
def Place.location : Place → Location
  | .found l => l
  | .absent dir name _ => name :: dir

/-- Nothing, or a regular file. -/
def Plain (o : Option Entry) : Prop := ∀ e, o = some e → ∃ content mode, e = .file content mode

theorem plain_none : Plain none := nofun

theorem plain_file (content : Bytes) (mode : Bool) : Plain (some (.file content mode)) := by
  rintro e ⟨⟩
  exact ⟨content, mode, rfl⟩

def IsDevice (o : Option Entry) : Prop := ∃ e, o = some e ∧ e.isDevice = true

theorem IsDevice.not_plain {o : Option Entry} (h : IsDevice o) : ¬ Plain o := by
  rintro hplain
  obtain ⟨e, rfl, he⟩ := h
  obtain ⟨content, mode, rfl⟩ := hplain e rfl
  cases he

/-! Directories, links and devices. -/

/-- Whatever `t` holds except for regular files, `u` holds at the same location. -/
structure Outlined (t u : FileTree) : Prop where
  here : u.here = t.here
  keeps : ∀ l, Plain (t.at? l) ∨ u.at? l = t.at? l

theorem Outlined.refl (t : FileTree) : t.Outlined t := ⟨rfl, fun _ => .inr rfl⟩

theorem Outlined.trans (h : t.Outlined u) (h' : u.Outlined v) : t.Outlined v := by
  refine ⟨h'.here.trans h.here, fun l => ?_⟩
  rcases h.keeps l with hplain | hl
  · exact .inl hplain
  · rw [← hl]
    exact h'.keeps l

theorem Outlined.keeps_directory (w : Outlined t u) (h : t.at? l = some .directory) :
    u.at? l = some .directory := by
  rcases w.keeps l with hplain | hl
  · obtain ⟨_, _, hfile⟩ := hplain _ h
    cases hfile
  · exact hl.trans h

theorem Outlined.keeps_link {target : Path} (w : Outlined t u)
    (h : t.at? l = some (.link target)) : u.at? l = some (.link target) := by
  rcases w.keeps l with hplain | hl
  · obtain ⟨_, _, hfile⟩ := hplain _ h
    cases hfile
  · exact hl.trans h

theorem Leads.of_outlined (w : Outlined t u) (h : t.Leads k dir xs d) : u.Leads k dir xs d := by
  induction h with
  | here => exact .here
  | idle hn _ ih => exact .idle hn ih
  | up _ ih => exact .up ih
  | down hs he _ ih => exact .down hs (w.keeps_directory he) ih
  | follow hs he _ ih => exact .follow hs (w.keeps_link he) ih

theorem Outlined.start_eq (w : Outlined t u) (p : Path) : u.start p = t.start p := by
  rw [start, start, w.here]

/-- A walk that ends at a file, or where a file can be made, ends there if a file or a device
stands there. -/
theorem Resolves.of_outlined {e : Entry} (w : Outlined t u) (h : t.Resolves aim k dir xs place)
    (haim : aim ≠ .entry) (hend : aim = .file ∨ place = .found place.location)
    (hplace : u.at? place.location = some e) (hdir : e ≠ .directory)
    (hlink : ∀ target, e ≠ .link target) :
    u.Resolves .target k dir xs (.found place.location) := by
  have last : ∀ target, e = .link target → Aim.target = .entry :=
    fun target h => absurd h (hlink target)
  induction h with
  | done => exact .done
  | idle hn _ ih => exact .idle hn (ih hend hplace)
  | up _ ih => exact .up (ih hend hplace)
  | down hs _ he _ ih => exact .down hs nofun (w.keeps_directory he) (ih hend hplace)
  | follow hs _ he _ _ ih => exact .follow hs nofun (w.keeps_link he) nofun (ih hend hplace)
  | entry hs => exact .entry hs hplace hdir last
  | @absent k dir n rest hs ha _ hrest =>
      rcases hend with rfl | hfound
      · cases rest with
        | nil => exact .entry hs hplace hdir last
        | cons => exact absurd hrest (ha rfl (List.cons_ne_nil _ _))
      · cases hfound

/-- A name leads to its own entry unless it stands for a link. -/
theorem Resolves.location_eq (hn : IsName name) (h : t.Resolves aim k dir [name] place) :
    place.location = name :: dir ∨ ∃ target, t.at? (name :: dir) = some (.link target) := by
  cases h with
  | idle hidle => exact absurd hidle hn.not_idle
  | up => exact absurd rfl hn.ne_up
  | down _ _ _ h =>
      cases h
      exact .inl rfl
  | follow _ _ he => exact .inr ⟨_, he⟩
  | entry | absent => exact .inl rfl

/-! Opening and writing. -/

/-- From `t` to `u` the file that a path leads to has been given a content, and has been made if
it was not there; nothing else has changed. A file that was there keeps its mode. -/
structure Writes (t : FileTree) (p : Path) (l : Location) (content : Bytes) (u : FileTree) :
    Prop where
  leads : ∃ place, t.locate .file p = .ok place ∧ place.location = l
  plain : Plain (t.at? l)
  sets : ∃ mode, (∀ old m, t.at? l = some (.file old m) → mode = m) ∧
    t.Sets l (some (.file content mode)) u

theorem openForWriting_of_error {e : FileError} (h : t.locate .file p = .error e) :
    openForWriting p executable t = (.error e, t) := by
  simp only [openForWriting, change, h]

theorem openForWriting_of_absent {slash : Bool}
    (h : t.locate .file p = .ok (.absent dir name slash)) :
    openForWriting p executable t =
      (.ok (name :: dir), t.put (name :: dir) (.file [] executable)) := by
  simp only [openForWriting, change, h]

theorem openForWriting_of_file {content : Bytes} {mode : Bool}
    (h : t.locate .file p = .ok (.found l)) (he : t.at? l = some (.file content mode)) :
    openForWriting p executable t = (.ok l, t.put l (.file [] mode)) := by
  simp only [openForWriting, change, h, he]

theorem openForWriting_ok_cases (h : openForWriting p executable t = (.ok l, u)) :
    IsDevice (t.at? l) ∧ u = t ∨ Writes t p l [] u := by
  rw [openForWriting, change_ok_iff] at h
  split at h
  · cases h
  · rename_i dir n slash hlocate
    cases h
    have free := (locate_ok_iff.mp hlocate).2.at?_eq_none
    refine .inr ⟨⟨_, hlocate, rfl⟩, free ▸ plain_none, executable, fun old m he => ?_,
      sets_put (List.cons_ne_nil n dir) _⟩
    cases free.symm.trans he
  · rename_i l' hlocate
    split at h
    · rename_i content mode he
      cases h
      have hl : l ≠ [] := by
        rintro rfl
        cases he
      refine .inr ⟨⟨_, hlocate, rfl⟩, he ▸ plain_file content mode, mode, fun old m he' => ?_,
        sets_put hl _⟩
      cases he.symm.trans he'
      rfl
    -- The sink, the standard output and the error stream.
    iterate 3
      · rename_i he
        cases h
        exact .inl ⟨⟨_, he, rfl⟩, rfl⟩
    · cases h
    · cases h

theorem at?_overwrite_of_ne {m : Location} (hm : m ≠ l)
    (content : Bytes) : (t.overwrite l content).at? m = t.at? m := by
  unfold overwrite
  split
  · rename_i old mode he
    have hl : l ≠ [] := by
      rintro rfl
      cases he
    exact (sets_put hl _).at?_of_ne hm
  · rfl

theorem overwrite_of_device (h : IsDevice (t.at? l)) (content : Bytes) :
    t.overwrite l content = t := by
  obtain ⟨e, he, hdevice⟩ := h
  cases e with
  | sink | descriptor _ => simp [overwrite, he]
  | directory | file _ _ | link _ => cases hdevice

theorem sets_overwrite {mode : Bool} (h : t.at? l = some (.file [] mode)) (content : Bytes) :
    t.Sets l (some (.file content mode)) (t.overwrite l content) := by
  have hl : l ≠ [] := by
    rintro rfl
    cases h
  have hput : t.overwrite l content = t.put l (.file content mode) := by simp [overwrite, h]
  rw [hput]
  exact sets_put hl _

theorem Writes.overwrite (h : Writes t p l [] u) (content : Bytes) :
    Writes t p l content (u.overwrite l content) := by
  obtain ⟨mode, hmode, hset⟩ := h.sets
  exact ⟨h.leads, h.plain, mode, hmode, hset.trans (sets_overwrite hset.at?_self content)⟩

theorem writeBytes_apply (p : Path) (content : Bytes) (t : FileTree) :
    writeBytes p content t =
      match openForWriting p false t with
      | (.error e, u) => (.error e, u)
      | (.ok l, u) => (.ok (), u.overwrite l content) := by
  unfold writeBytes
  rw [bind_apply]
  rcases openForWriting p false t with ⟨e | l, u⟩ <;> rfl

theorem writeBytes_ok_cases {content : Bytes} (h : writeBytes p content t = (.ok (), u)) :
    u = t ∨ ∃ l, Writes t p l content u := by
  obtain ⟨l, s, hopen, hwrite⟩ := bind_ok_iff.mp h
  cases hwrite
  rcases openForWriting_ok_cases hopen with ⟨hdevice, rfl⟩ | hwrites
  · exact .inl (overwrite_of_device hdevice content)
  · exact .inr ⟨l, hwrites.overwrite content⟩

theorem allOrNothing_writeBytes (p : Path) (content : Bytes) :
    AllOrNothing (writeBytes p content) :=
  (allOrNothing_openForWriting p false).bind_of_ok fun _ _ => ⟨(), rfl⟩

section
variable {content : Bytes}

theorem Writes.outlined (h : Writes t p l content u) : t.Outlined u := by
  obtain ⟨mode, -, hset⟩ := h.sets
  refine ⟨hset.here, fun m => ?_⟩
  by_cases hm : m = l
  · exact .inl (hm ▸ h.plain)
  · exact .inr (hset.at?_of_ne hm)

theorem Writes.outlined_back (h : Writes t p l content u) : u.Outlined t := by
  obtain ⟨mode, -, hset⟩ := h.sets
  refine ⟨hset.here.symm, fun m => ?_⟩
  by_cases hm : m = l
  · subst hm
    rw [hset.at?_self]
    exact .inl (plain_file content mode)
  · exact .inr (hset.at?_of_ne hm).symm

/-- Where the file is or can be written, it is found once it is there. -/
theorem existing_of_locate_file {v : FileTree} {mode : Bool} (w : Outlined t v)
    (h : t.locate .file p = .ok place)
    (he : v.at? place.location = some (.file content mode)) :
    v.existing .target p = .ok place.location := by
  obtain ⟨hchecked, hr⟩ := locate_ok_iff.mp h
  refine existing_ok_iff.mpr ⟨hchecked, ?_⟩
  rw [w.start_eq]
  exact hr.of_outlined w nofun (.inl rfl) he nofun nofun

theorem Writes.existing (h : Writes t p l content u) : u.existing .target p = .ok l := by
  obtain ⟨place, hlocate, rfl⟩ := h.leads
  obtain ⟨mode, -, hset⟩ := h.sets
  exact existing_of_locate_file h.outlined hlocate hset.at?_self

theorem Writes.status (h : Writes t p l content u) :
    ∃ mode, u.status .target p = .ok (.file content mode) := by
  obtain ⟨mode, -, hset⟩ := h.sets
  exact ⟨mode, status_ok_iff.mpr ⟨l, h.existing, hset.at?_self⟩⟩

theorem Writes.readText (h : Writes t p l content u) :
    u.readText p = (Utf8.decode? content).elim (.error .notText) .ok := by
  obtain ⟨mode, hstatus⟩ := h.status
  rw [FileTree.readText, readBytes, hstatus]

/-- What is written by the path of a directory and a name is the entry of that name, unless the
name stands for a link. -/
theorem Writes.of_join (hn : IsName name) (h : Writes t (join root name) l content u) :
    Accepted root name ∧ ∃ i ≤ linkLimit, ∃ d, t.LeadsTo i root d ∧
      (l = name :: d ∨ ∃ target, t.at? (name :: d) = some (.link target)) := by
  obtain ⟨place, hlocate, rfl⟩ := h.leads
  obtain ⟨ha, i, j, d, hij, hl, hr⟩ := of_locate_join hn hlocate
  exact ⟨ha, i, by omega, d, hl, hr.location_eq hn⟩

end

end FileTree
end Horizon
