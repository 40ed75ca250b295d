import Horizon.Proofs.FileWrites

/-!
Walks in two trees at once. The trees differ in some plain files of one directory only, and both
may have other links and files there than the tree that a walk is known from. A walk to a file
elsewhere ends in both at one place or with one error, and a way to the directory is broken off in
both or in neither.
-/

namespace Horizon
namespace FileTree

open Horizon.Path

variable {t u v u₁ u₂ : FileTree} {aim : Aim} {i j k : Nat} {dir d d' l : Location} {n m name : Text}
  {rest xs ys : List Text} {own : List Text} {copied : Prop} {o o' : Option Entry} {target : Path}

/-! Single steps. -/

def IsFile (o : Option Entry) : Prop := ∃ content mode, o = some (.file content mode)

theorem walk_file (hs : Storable n) (ha : aim.Allows rest) (he : IsFile (t.at? (n :: dir))) :
    walk t aim k dir (n :: rest) =
      if rest.isEmpty then .ok (.found (n :: dir)) else .error .notADirectory := by
  obtain ⟨content, mode, he⟩ := he
  rw [walk_eq, walkNames_cons hs ha, he]

/-- On a way to a directory so many links are used up, and the walk goes on from there. -/
theorem Leads.walk_append (h : t.Leads i dir xs d) (ha : ∀ zs, aim.Allows (zs ++ ys))
    (hlast : aim = .entry → ys ≠ []) : walk t aim (i + k) dir (xs ++ ys) = walk t aim k d ys := by
  induction h with
  | here => rw [Nat.zero_add, List.nil_append]
  | idle hn _ ih => rw [List.cons_append, walk_idle hn, ih]
  | up _ ih => rw [List.cons_append, walk_up, ih]
  | down hs he _ ih => rw [List.cons_append, walk_directory hs (ha _) he, ih]
  | follow hs he _ ih =>
      rw [List.append_assoc] at ih
      rw [List.cons_append, walk_link hs (ha _) (by simp_all) he, Nat.succ_add]
      exact ih

/-- From the path of a file nothing goes on. -/
theorem walk_pathOf (hd : t.Opens d) (hs : Storable n) (he : IsFile (t.at? (n :: d)))
    (ha : aim.Allows rest) :
    walk t aim k [] (names (pathOf (n :: d)) ++ rest) =
      if rest.isEmpty then .ok (.found (n :: d)) else .error .notADirectory := by
  have plain : ∀ m ∈ n :: d, '/' ∉ m := List.forall_mem_cons.mpr ⟨hs.no_slash, hd.no_slash⟩
  rw [names_pathOf plain (List.cons_ne_nil n d), List.reverse_cons, List.cons_append,
    List.append_assoc, walk_idle (.inl rfl)]
  have hallows : ∀ zs, aim.Allows (zs ++ ([n] ++ rest)) :=
    fun zs _ _ h => hs.ne_nil (h n (by simp))
  have hway := hd.leads.walk_append (k := k) hallows (fun _ => by simp)
  rw [Nat.zero_add] at hway
  rw [hway]
  exact walk_file hs ha he

/-- A link to a file, by the path that leads there without links. -/
theorem walk_link_pathOf (hs : Storable n) (ha : aim.Allows rest) (hlast : aim = .entry → rest ≠ [])
    (he : t.at? (n :: dir) = some (.link (pathOf (m :: d)))) (hm : Storable m) (hd : t.Opens d)
    (hf : IsFile (t.at? (m :: d))) :
    walk t aim k dir (n :: rest) =
      if k = 0 then .error .tooManyLinks
      else if rest.isEmpty then .ok (.found (m :: d)) else .error .notADirectory := by
  rw [walk_link hs ha hlast he, origin, isAbsolute_pathOf, if_pos rfl]
  cases k with
  | zero => rfl
  | succ k =>
      rw [jump, walk_pathOf hd hm hf ha]
      rfl

/-! Trees that are compared. -/

/-- The same entry, or files with the same content. -/
def Matched (o o' : Option Entry) : Prop :=
  o' = o ∨ ∃ content mode mode', o = some (.file content mode) ∧ o' = some (.file content mode')

/-- The trees differ in the directory only, in modes of files there and in which of some names
stand for plain files. -/
structure Alike (d : Location) (own : List Text) (t u : FileTree) : Prop where
  here : u.here = t.here
  outside : ∀ l, Outside d l → u.at? l = t.at? l
  inside : ∀ n, Matched (t.at? (n :: d)) (u.at? (n :: d)) ∨
    n ∈ own ∧ Plain (t.at? (n :: d)) ∧ Plain (u.at? (n :: d))

/-- A regular file outside the directory with a chain of directories down to it. -/
structure Anchored (t : FileTree) (d : Location) (n : Text) (d' : Location) : Prop where
  storable : Storable n
  opens : t.Opens d'
  isFile : IsFile (t.at? (n :: d'))
  outside : Outside d (n :: d')

/-- What may take the place of an entry of the directory: nothing, a link to a file outside, and
from a certain point on a file. -/
inductive Refill (t : FileTree) (d : Location) (copied : Prop) : Option Entry → Prop
  | none : Refill t d copied none
  | link {n : Text} {d' : Location} : Anchored t d n d' →
      Refill t d copied (some (.link (pathOf (n :: d'))))
  | file {o : Option Entry} : copied → IsFile o → Refill t d copied o

/-- `u` is `t` with other entries in the directory, except for directories, and with other contents
of the files elsewhere. -/
structure Refilled (t : FileTree) (d : Location) (copied : Prop) (u : FileTree) : Prop where
  here : u.here = t.here
  outside : ∀ l, Outside d l → u.at? l = t.at? l ∨ IsFile (t.at? l) ∧ IsFile (u.at? l)
  inside : ∀ n, u.at? (n :: d) = t.at? (n :: d) ∨
    t.at? (n :: d) ≠ some .directory ∧ Refill t d copied (u.at? (n :: d))

/-- Two trees with new entries in a directory where plain files may stand for some names. -/
structure Paired (t : FileTree) (d : Location) (own : List Text) (copied : Prop)
    (u₁ u₂ : FileTree) : Prop where
  plain : ∀ n ∈ own, Plain (t.at? (n :: d))
  refilled : Refilled t d copied u₁
  alike : Alike d own u₁ u₂

theorem Matched.refl (o : Option Entry) : Matched o o := .inl rfl

theorem Matched.symm (h : Matched o o') : Matched o' o := by
  rcases h with h | ⟨content, mode, mode', ho, ho'⟩
  · exact .inl h.symm
  · exact .inr ⟨content, mode', mode, ho', ho⟩

theorem Matched.eq_of_ne_file (h : Matched o o') (ho : ¬ IsFile o) : o' = o := by
  rcases h with h | ⟨content, mode, -, h, -⟩
  · exact h
  · exact absurd ⟨content, mode, h⟩ ho

theorem Matched.isFile (h : Matched o o') (ho : IsFile o) : IsFile o' := by
  rcases h with rfl | ⟨content, -, mode, -, h⟩
  · exact ho
  · exact ⟨content, mode, h⟩

theorem Matched.plain (h : Matched o o') (ho : Plain o) : Plain o' := by
  rcases h with rfl | ⟨content, -, mode, -, rfl⟩
  · exact ho
  · exact plain_file content mode

theorem Matched.plain_or_eq (h : Matched o o') : Plain o ∨ o' = o := by
  rcases h with h | ⟨content, mode, -, rfl, -⟩
  · exact .inr h
  · exact .inl (plain_file content mode)

theorem IsFile.plain (h : IsFile o) : Plain o := by
  obtain ⟨content, mode, rfl⟩ := h
  exact plain_file content mode

theorem not_plain {e : Entry} (he : ∀ content mode, e ≠ .file content mode) : ¬ Plain (some e) := by
  intro h
  obtain ⟨content, mode, hfile⟩ := h e rfl
  exact he content mode hfile

theorem not_isFile {e : Entry} (he : ∀ content mode, e ≠ .file content mode) :
    ¬ IsFile (some e) :=
  fun h => not_plain he h.plain

theorem Plain.ne_directory (h : Plain o) : o ≠ some .directory := by
  rintro rfl
  exact not_plain (e := .directory) nofun h

theorem Refill.ne_directory (h : Refill t d copied o) : o ≠ some .directory := by
  cases h with
  | none | link => nofun
  | file _ h =>
      rintro rfl
      exact not_isFile (e := .directory) nofun h

/-! Trees that are alike. -/

theorem Alike.refl (t : FileTree) (d : Location) (own : List Text) : Alike d own t t :=
  ⟨rfl, fun _ _ => rfl, fun _ => .inl (.refl _)⟩

theorem Alike.symm (h : Alike d own t u) : Alike d own u t := by
  refine ⟨h.here.symm, fun l hl => (h.outside l hl).symm, fun n => ?_⟩
  rcases h.inside n with hm | ⟨hn, ht, hu⟩
  · exact .inl hm.symm
  · exact .inr ⟨hn, hu, ht⟩

theorem Alike.matched (h : Alike d [] t u) (l : Location) : Matched (t.at? l) (u.at? l) := by
  rcases outside_or d l with hout | ⟨n, rfl⟩
  · exact .inl (h.outside l hout)
  · rcases h.inside n with hm | ⟨hn, -⟩
    · exact hm
    · exact absurd hn List.not_mem_nil

theorem Alike.outlined (h : Alike d own t u) : t.Outlined u := by
  refine ⟨h.here, fun l => ?_⟩
  rcases outside_or d l with hout | ⟨n, rfl⟩
  · exact .inr (h.outside l hout)
  · rcases h.inside n with hm | ⟨-, hplain, -⟩
    · exact hm.plain_or_eq
    · exact .inl hplain

theorem Alike.directory_iff (h : Alike d own t u) :
    u.at? l = some .directory ↔ t.at? l = some .directory :=
  ⟨h.symm.outlined.keeps_directory, h.outlined.keeps_directory⟩

/-- A file of one of the names makes no more difference. -/
theorem Alike.put (h : Alike d own t u) (hn : n ∈ own) (ht : Plain (t.at? (n :: d)))
    (content : Bytes) (mode : Bool) : Alike d own t (u.put (n :: d) (.file content mode)) := by
  have hset := sets_put (t := u) (List.cons_ne_nil n d) (.file content mode)
  refine ⟨hset.here.trans h.here, fun l hl => ?_, fun m => ?_⟩
  · rw [hset.at?_of_ne (hl n)]
    exact h.outside l hl
  · by_cases hmn : m = n
    · rw [hmn, hset.at?_self]
      exact .inr ⟨hn, ht, plain_file content mode⟩
    · rw [hset.at?_of_ne (by simpa using hmn)]
      exact h.inside m

/-! Directories, links and files of the tree that is known. -/

theorem opens_congr (h : ∀ l, u.at? l = some .directory ↔ t.at? l = some .directory) :
    u.Opens l ↔ t.Opens l := by
  induction l with
  | nil => exact Iff.rfl
  | cons n l ih => exact and_congr Iff.rfl (and_congr (h _) ih)

theorem Refilled.refl (t : FileTree) (d : Location) (copied : Prop) : Refilled t d copied t :=
  ⟨rfl, fun _ _ => .inl rfl, fun _ => .inl rfl⟩

/-- An entry that is no file is still there unless it has been replaced in the directory. -/
theorem Refilled.cases {e : Entry} (h : Refilled t d copied u) (he : t.at? l = some e)
    (hfile : ∀ content mode, e ≠ .file content mode) :
    u.at? l = some e ∨ e ≠ .directory ∧ Refill t d copied (u.at? l) := by
  rcases outside_or d l with hout | ⟨n, rfl⟩
  · rcases h.outside l hout with hl | ⟨ht, -⟩
    · exact .inl (hl.trans he)
    · exact absurd (he ▸ ht) (not_isFile hfile)
  · rcases h.inside n with hl | ⟨hne, hr⟩
    · exact .inl (hl.trans he)
    · exact .inr ⟨fun hdir => hne (hdir ▸ he), hr⟩

theorem Refilled.directory_iff (h : Refilled t d copied u) :
    u.at? l = some .directory ↔ t.at? l = some .directory := by
  constructor
  · intro he
    rcases outside_or d l with hout | ⟨n, rfl⟩
    · rcases h.outside l hout with hl | ⟨-, hu⟩
      · exact hl.symm.trans he
      · exact absurd (he ▸ hu) (not_isFile (e := .directory) nofun)
    · rcases h.inside n with hl | ⟨-, hr⟩
      · exact hl.symm.trans he
      · exact absurd he hr.ne_directory
  · intro he
    rcases h.cases he nofun with hl | ⟨hne, -⟩
    · exact hl
    · exact absurd rfl hne

theorem Refilled.isFile_iff (h : Refilled t d copied u) (hl : Outside d l) :
    IsFile (u.at? l) ↔ IsFile (t.at? l) := by
  rcases h.outside l hl with he | ⟨ht, hu⟩
  · rw [he]
  · exact iff_of_true hu ht

theorem Paired.start_eq (h : Paired t d own copied u₁ u₂) (p : Path) :
    u₁.start p = t.start p ∧ u₂.start p = t.start p := by
  unfold start
  rw [h.alike.here, h.refilled.here]
  exact ⟨rfl, rfl⟩

theorem Paired.directory (h : Paired t d own copied u₁ u₂) (he : t.at? l = some .directory) :
    u₁.at? l = some .directory ∧ u₂.at? l = some .directory := by
  have h₁ := h.refilled.directory_iff.mpr he
  exact ⟨h₁, h.alike.directory_iff.mpr h₁⟩

/-- A directory of the known tree is one in both trees. -/
theorem Paired.opens (h : Paired t d own copied u₁ u₂) (hl : t.Opens l) :
    u₁.Opens l ∧ u₂.Opens l := by
  have h₁ := (opens_congr fun _ => h.refilled.directory_iff).mpr hl
  exact ⟨h₁, (opens_congr fun _ => h.alike.directory_iff).mpr h₁⟩

/-- A link of the known tree is in both trees, or something else has taken its place in both. -/
theorem Paired.link_cases (h : Paired t d own copied u₁ u₂) (he : t.at? l = some (.link target)) :
    u₁.at? l = some (.link target) ∧ u₂.at? l = some (.link target) ∨
      Refill t d copied (u₁.at? l) ∧ Matched (u₁.at? l) (u₂.at? l) := by
  have hm : Matched (u₁.at? l) (u₂.at? l) := by
    rcases outside_or d l with hout | ⟨n, rfl⟩
    · exact .inl (h.alike.outside l hout)
    · rcases h.alike.inside n with hm | ⟨hn, -⟩
      · exact hm
      · exact absurd (he ▸ h.plain n hn) (not_plain (e := .link target) nofun)
  rcases h.refilled.cases he nofun with h₁ | ⟨-, hr⟩
  · exact .inl ⟨h₁, (hm.eq_of_ne_file (h₁ ▸ not_isFile nofun)).trans h₁⟩
  · exact .inr ⟨hr, hm⟩

/-! Ways that are broken off, and walks that end elsewhere. -/

/-- A walk from one of the trees ends at a file, and the other tree has the same content there. -/
structure EndsAt (d : Location) (copied : Prop) (u₁ u₂ : FileTree) (l : Location) : Prop where
  isFile : IsFile (u₁.at? l)
  matched : Matched (u₁.at? l) (u₂.at? l)
  outside : Outside d l ∨ copied

theorem Paired.endsAt (h : Paired t d own copied u₁ u₂) (hf : IsFile (t.at? l))
    (hout : Outside d l) : EndsAt d copied u₁ u₂ l :=
  ⟨(h.refilled.isFile_iff hout).mpr hf, .inl (h.alike.outside l hout), .inl hout⟩

theorem EndsAt.isFile_both (h : EndsAt d copied u₁ u₂ l) :
    IsFile (u₁.at? l) ∧ IsFile (u₂.at? l) := ⟨h.isFile, h.matched.isFile h.isFile⟩

theorem found_of_isEmpty {e : FileError} {place : Place}
    (h : (if rest.isEmpty then .ok (.found l) else .error e : Except FileError Place) = .ok place) :
    rest = [] ∧ place = .found l := by
  cases rest with
  | nil =>
      cases h
      exact ⟨rfl, rfl⟩
  | cons => cases h

/-- Walks that come to what has taken the place of a link have one result. Nothing goes on from
there, so they fail if a proper name is left. -/
theorem Paired.replaced (h : Paired t d own copied u₁ u₂) (hs : Storable n)
    (hr : Refill t d copied (u₁.at? (n :: dir)))
    (hm : Matched (u₁.at? (n :: dir)) (u₂.at? (n :: dir))) (k : Nat) (rest : List Text) :
    ∃ r, (∀ aim : Aim, aim.Allows rest → (aim = .entry → rest ≠ []) →
        walk u₁ aim k dir (n :: rest) = r ∧ walk u₂ aim k dir (n :: rest) = r) ∧
      ∀ place, r = .ok place →
        (∀ m ∈ rest, m = []) ∧ ∀ l, place = .found l → EndsAt d copied u₁ u₂ l := by
  generalize ho : u₁.at? (n :: dir) = o at hr hm
  cases hr with
  | none =>
      have ho' := hm.eq_of_ne_file nofun
      refine ⟨_, fun aim ha _ => ⟨walk_none hs ha ho, walk_none hs ha ho'⟩, fun place hplace => ?_⟩
      split at hplace
      · rename_i hall
        cases hplace
        exact ⟨by simpa using hall, nofun⟩
      · cases hplace
  | @link m d' hanchored =>
      have ho' := hm.eq_of_ne_file (not_isFile nofun)
      obtain ⟨hd₁, hd₂⟩ := h.opens hanchored.opens
      have hends := h.endsAt hanchored.isFile hanchored.outside
      obtain ⟨hf₁, hf₂⟩ := hends.isFile_both
      refine ⟨_, fun aim ha hlast =>
        ⟨walk_link_pathOf hs ha hlast ho hanchored.storable hd₁ hf₁,
          walk_link_pathOf hs ha hlast ho' hanchored.storable hd₂ hf₂⟩, fun place hplace => ?_⟩
      split at hplace
      · cases hplace
      · obtain ⟨rfl, rfl⟩ := found_of_isEmpty hplace
        refine ⟨nofun, ?_⟩
        rintro l ⟨⟩
        exact hends
  | file hcopied hf =>
      subst ho
      refine ⟨_, fun aim ha _ => ⟨walk_file hs ha hf, walk_file hs ha (hm.isFile hf)⟩,
        fun place hplace => ?_⟩
      obtain ⟨rfl, rfl⟩ := found_of_isEmpty hplace
      refine ⟨nofun, ?_⟩
      rintro l ⟨⟩
      exact ⟨hf, hm, .inr hcopied⟩

/-- Both walks along a way to a directory come to it, or both fail on the way. -/
theorem Paired.way (h : Paired t d own copied u₁ u₂) (hw : t.Leads i dir xs d') (hn : IsName name)
    (k : Nat) :
    (∃ e, ∀ aim, walk u₁ aim k dir (xs ++ [name]) = .error e ∧
      walk u₂ aim k dir (xs ++ [name]) = .error e) ∨
    ∃ j, ∀ aim, walk u₁ aim k dir (xs ++ [name]) = walk u₁ aim j d' [name] ∧
      walk u₂ aim k dir (xs ++ [name]) = walk u₂ aim j d' [name] := by
  have ha : ∀ (aim : Aim) (ys : List Text), aim.Allows (ys ++ [name]) :=
    fun _ _ => Aim.allows_append_name hn
  induction hw generalizing k with
  | here => exact .inr ⟨k, fun _ => ⟨rfl, rfl⟩⟩
  | idle hidle _ ih =>
      simp only [List.cons_append, walk_idle hidle]
      exact ih k
  | up _ ih =>
      simp only [List.cons_append, walk_up]
      exact ih k
  | down hs he _ ih =>
      obtain ⟨h₁, h₂⟩ := h.directory he
      simp only [List.cons_append, walk_directory hs (ha _ _) h₁, walk_directory hs (ha _ _) h₂]
      exact ih k
  | @follow i dir d' n rest target hs he _ ih =>
      have hlast : ∀ aim : Aim, aim = .entry → rest ++ [name] ≠ [] := fun _ _ => by simp
      rcases h.link_cases he with ⟨h₁, h₂⟩ | ⟨hr, hm⟩
      · simp only [List.cons_append, walk_link hs (ha _ _) (hlast _) h₁,
          walk_link hs (ha _ _) (hlast _) h₂]
        cases k with
        | zero => exact .inl ⟨.tooManyLinks, fun _ => ⟨rfl, rfl⟩⟩
        | succ k =>
            have hnext := ih k
            rw [List.append_assoc] at hnext
            exact hnext
      · obtain ⟨r, hwalk, hok⟩ := h.replaced hs hr hm k (rest ++ [name])
        cases r with
        | error e => exact .inl ⟨e, fun aim => hwalk aim (ha aim rest) (hlast aim)⟩
        | ok place => exact absurd ((hok place rfl).1 name (by simp)) hn.ne_nil

/-- Both walks give the same, and end at a file if they succeed. -/
def Meet (d : Location) (copied : Prop) (u₁ u₂ : FileTree) (k : Nat) (dir : Location)
    (xs : List Text) : Prop :=
  walk u₂ .target k dir xs = walk u₁ .target k dir xs ∧
    ∀ l, walk u₁ .target k dir xs = .ok (.found l) → EndsAt d copied u₁ u₂ l

theorem meet_of_eq {ys : List Text} {dir' : Location} {k' : Nat}
    (h₁ : walk u₁ .target k dir xs = walk u₁ .target k' dir' ys)
    (h₂ : walk u₂ .target k dir xs = walk u₂ .target k' dir' ys)
    (h : Meet d copied u₁ u₂ k' dir' ys) : Meet d copied u₁ u₂ k dir xs := by
  unfold Meet
  rw [h₁, h₂]
  exact h

/-- A file elsewhere that a path leads to is found in both trees, or both walks come to what has
been put in the place of a link on the way. -/
theorem Paired.meet (h : Paired t d own copied u₁ u₂)
    (hw : t.Resolves .target i dir xs (.found l)) (hf : IsFile (t.at? l)) (hout : Outside d l)
    (k : Nat) : Meet d copied u₁ u₂ k dir xs := by
  have hends := h.endsAt hf hout
  generalize hplace : Place.found l = place at hw
  induction hw generalizing k with
  | done =>
      cases hplace
      refine ⟨by simp only [walk_eq, walkNames], fun l' hl' => ?_⟩
      simp only [walk_eq, walkNames, Except.ok.injEq, Place.found.injEq] at hl'
      exact hl' ▸ hends
  | idle hidle _ ih => exact meet_of_eq (walk_idle hidle) (walk_idle hidle) (ih k hplace)
  | up _ ih => exact meet_of_eq walk_up walk_up (ih k hplace)
  | down hs ha he _ ih =>
      obtain ⟨h₁, h₂⟩ := h.directory he
      exact meet_of_eq (walk_directory hs ha h₁) (walk_directory hs ha h₂) (ih k hplace)
  | @follow i dir n rest place target hs ha he hlast _ ih =>
      rcases h.link_cases he with ⟨h₁, h₂⟩ | ⟨hr, hm⟩
      · have hw₁ := walk_link (k := k) hs ha hlast h₁
        have hw₂ := walk_link (k := k) hs ha hlast h₂
        cases k with
        | zero =>
            refine ⟨hw₂.trans hw₁.symm, fun l hl => ?_⟩
            cases hw₁.symm.trans hl
        | succ k => exact meet_of_eq hw₁ hw₂ (ih k hplace)
      · obtain ⟨r, hwalk, hok⟩ := h.replaced hs hr hm k rest
        obtain ⟨hw₁, hw₂⟩ := hwalk .target ha hlast
        exact ⟨hw₂.trans hw₁.symm, fun l hl => (hok _ (hw₁.symm.trans hl)).2 l rfl⟩
  | entry hs =>
      cases hplace
      obtain ⟨hf₁, hf₂⟩ := hends.isFile_both
      have ha : Aim.target.Allows [] := Aim.allows_nil
      have hw₁ := walk_file (k := k) hs ha hf₁
      have hw₂ := walk_file (k := k) hs ha hf₂
      refine ⟨hw₂.trans hw₁.symm, fun l hl => ?_⟩
      cases (found_of_isEmpty (hw₁.symm.trans hl)).2
      exact hends
  | absent => cases hplace

end FileTree
end Horizon
