import Horizon.Proofs.PathNames

/-!
Resolution of paths. A walk that succeeds is described by a relation with one rule for each
thing that a name can do, and a walk through directories and links down to a directory by
another one, which counts the links. Every name but the last one of a successful walk leads to
the directory that holds the last one. A larger tree has all that a walk passes through, so the
walk finds in it what it found before.
-/

namespace Horizon
namespace FileTree

open Horizon.Path

/-- A name that a directory can hold. -/
structure Storable (n : Text) : Prop extends IsName n where
  short : Text.byteSize n ≤ nameLimit

/-- Where the target of a link that `dir` holds is looked up. -/
def origin (dir : Location) (target : Path) : Location := if isAbsolute target then [] else dir

/-- Whether a name may be followed by these. Only slashes after a file to write are refused. -/
def Aim.Allows (aim : Aim) (rest : List Text) : Prop :=
  aim = .file → rest ≠ [] → ¬ ∀ n ∈ rest, n = []

/-- A walk over names from a directory on, through at most so many links, ends at a place. -/
inductive Resolves (t : FileTree) (aim : Aim) : Nat → Location → List Text → Place → Prop
  | done {k : Nat} {dir : Location} : Resolves t aim k dir [] (.found dir)
  | idle {k : Nat} {dir : Location} {n : Text} {rest : List Text} {place : Place} :
      n = [] ∨ n = ['.'] → Resolves t aim k dir rest place → Resolves t aim k dir (n :: rest) place
  | up {k : Nat} {dir : Location} {rest : List Text} {place : Place} :
      Resolves t aim k dir.tail rest place → Resolves t aim k dir (['.', '.'] :: rest) place
  | down {k : Nat} {dir : Location} {n : Text} {rest : List Text} {place : Place} :
      Storable n → aim.Allows rest → t.at? (n :: dir) = some .directory →
      Resolves t aim k (n :: dir) rest place → Resolves t aim k dir (n :: rest) place
  | follow {k : Nat} {dir : Location} {n : Text} {rest : List Text} {place : Place}
      {target : Path} :
      Storable n → aim.Allows rest → t.at? (n :: dir) = some (.link target) →
      (aim = .entry → rest ≠ []) →
      Resolves t aim k (origin dir target) (names target ++ rest) place →
      Resolves t aim (k + 1) dir (n :: rest) place
  | entry {k : Nat} {dir : Location} {n : Text} {e : Entry} :
      Storable n → t.at? (n :: dir) = some e → e ≠ .directory →
      (∀ target, e = .link target → aim = .entry) → Resolves t aim k dir [n] (.found (n :: dir))
  | absent {k : Nat} {dir : Location} {n : Text} {rest : List Text} :
      Storable n → aim.Allows rest → t.at? (n :: dir) = none → (∀ m ∈ rest, m = []) →
      Resolves t aim k dir (n :: rest) (.absent dir n !rest.isEmpty)

/-- Names lead from a directory to a directory, through so many links. -/
inductive Leads (t : FileTree) : Nat → Location → List Text → Location → Prop
  | here {dir : Location} : Leads t 0 dir [] dir
  | idle {k : Nat} {dir d : Location} {n : Text} {rest : List Text} :
      n = [] ∨ n = ['.'] → Leads t k dir rest d → Leads t k dir (n :: rest) d
  | up {k : Nat} {dir d : Location} {rest : List Text} :
      Leads t k dir.tail rest d → Leads t k dir (['.', '.'] :: rest) d
  | down {k : Nat} {dir d : Location} {n : Text} {rest : List Text} :
      Storable n → t.at? (n :: dir) = some .directory → Leads t k (n :: dir) rest d →
      Leads t k dir (n :: rest) d
  | follow {k : Nat} {dir d : Location} {n : Text} {rest : List Text} {target : Path} :
      Storable n → t.at? (n :: dir) = some (.link target) →
      Leads t k (origin dir target) (names target ++ rest) d → Leads t (k + 1) dir (n :: rest) d

variable {t u : FileTree} {aim : Aim} {i j k : Nat} {dir d d' : Location} {n name : Text}
  {rest xs ys : List Text} {place : Place}

theorem Aim.allows_nil : aim.Allows [] := fun _ h => absurd rfl h

theorem Aim.allows_append_name (hn : IsName name) : aim.Allows (xs ++ [name]) := by
  intro _ _ h
  exact hn.ne_nil (h name (by simp))

theorem Aim.allows_iff :
    aim.Allows rest ↔ ¬ (decide (aim = .file) && !rest.isEmpty && rest.all List.isEmpty) = true := by
  simp [Aim.Allows]

/-! The relation and the walk. -/

/-- What a walk does with a link when so many may still be followed. -/
def jump (t : FileTree) (aim : Aim) : Nat → Location → List Text → Except FileError Place
  | 0 => fun _ _ => .error .tooManyLinks
  | k + 1 => walk t aim k

theorem walk_eq (t : FileTree) (aim : Aim) (k : Nat) :
    walk t aim k = walkNames t aim (jump t aim k) := by
  cases k <;> rfl

theorem walkNames_cons {jump : Location → List Text → Except FileError Place}
    (hn : Storable n) (ha : aim.Allows rest) :
    walkNames t aim jump dir (n :: rest) =
      match t.at? (n :: dir) with
      | none =>
          if rest.all List.isEmpty then .ok (.absent dir n !rest.isEmpty) else .error .notFound
      | some .directory => walkNames t aim jump (n :: dir) rest
      | some (.link target) =>
          if rest.isEmpty && aim = .entry then .ok (.found (n :: dir))
          else jump (origin dir target) (names target ++ rest)
      | some _ => if rest.isEmpty then .ok (.found (n :: dir)) else .error .notADirectory := by
  rw [walkNames, if_neg (by simpa using hn.not_idle), if_neg hn.ne_up,
    if_neg (Aim.allows_iff.mp ha), if_neg (Nat.not_lt.mpr hn.short)]
  rfl

theorem walk_idle (hn : n = [] ∨ n = ['.']) :
    walk t aim k dir (n :: rest) = walk t aim k dir rest := by
  rw [walk_eq]
  simp [walkNames, hn]

theorem walk_up : walk t aim k dir (['.', '.'] :: rest) = walk t aim k dir.tail rest := by
  rw [walk_eq]
  simp [walkNames]

theorem walk_none (hs : Storable n) (ha : aim.Allows rest) (he : t.at? (n :: dir) = none) :
    walk t aim k dir (n :: rest) =
      if rest.all List.isEmpty then .ok (.absent dir n !rest.isEmpty) else .error .notFound := by
  rw [walk_eq, walkNames_cons hs ha, he]

theorem walk_directory (hs : Storable n) (ha : aim.Allows rest)
    (he : t.at? (n :: dir) = some .directory) :
    walk t aim k dir (n :: rest) = walk t aim k (n :: dir) rest := by
  rw [walk_eq, walkNames_cons hs ha, he]

theorem walk_link {target : Path} (hs : Storable n) (ha : aim.Allows rest)
    (hlast : aim = .entry → rest ≠ []) (he : t.at? (n :: dir) = some (.link target)) :
    walk t aim k dir (n :: rest) = jump t aim k (origin dir target) (names target ++ rest) := by
  rw [walk_eq, walkNames_cons hs ha, he]
  exact if_neg (by simpa [and_comm] using hlast)

theorem Resolves.walk (h : t.Resolves aim k dir xs place) : walk t aim k dir xs = .ok place := by
  induction h with
  | done => rw [walk_eq]; rfl
  | idle hn _ ih => exact (walk_idle hn).trans ih
  | up _ ih => exact walk_up.trans ih
  | down hn ha he _ ih => exact (walk_directory hn ha he).trans ih
  | follow hn ha he hl _ ih => exact (walk_link hn ha hl he).trans ih
  | @entry k dir n e hn he hd hl =>
      rw [walk_eq, walkNames_cons hn Aim.allows_nil, he]
      cases e with
      | directory => contradiction
      | link target => simp [hl target rfl]
      | file | sink | descriptor => rfl
  | absent hn ha he hr =>
      rw [walk_none hn ha he]
      exact if_pos (by simpa using hr)

theorem resolves_of_walkNames {jump : Location → List Text → Except FileError Place}
    (hjump : ∀ dir names place, (∀ n ∈ names, '/' ∉ n) → jump dir names = .ok place →
      ∃ i, k = i + 1 ∧ t.Resolves aim i dir names place)
    (plain : ∀ n ∈ xs, '/' ∉ n) (h : walkNames t aim jump dir xs = .ok place) :
    t.Resolves aim k dir xs place := by
  induction xs generalizing dir with
  | nil => cases h; exact .done
  | cons n rest ih =>
      rw [List.forall_mem_cons] at plain
      unfold walkNames at h
      split at h
      · rename_i hn
        exact .idle (by simpa using hn) (ih plain.2 h)
      rename_i hidle
      split at h
      · rename_i hup
        subst hup
        exact .up (ih plain.2 h)
      rename_i hup
      split at h
      · cases h
      rename_i hallows
      split at h
      · cases h
      rename_i hshort
      simp only [Bool.or_eq_true, decide_eq_true_eq, not_or] at hidle
      have hn : Storable n := ⟨⟨hidle.1, hidle.2, hup, plain.1⟩, Nat.not_lt.mp hshort⟩
      have ha : aim.Allows rest := Aim.allows_iff.mpr hallows
      split at h
      · rename_i he
        split at h
        · rename_i hrest
          cases h
          exact .absent hn ha he (by simpa using hrest)
        · cases h
      · rename_i he
        exact .down hn ha he (ih plain.2 h)
      · rename_i target he
        split at h
        · rename_i hlast
          obtain ⟨rfl, haim⟩ : rest = [] ∧ aim = .entry := by simpa using hlast
          cases h
          exact .entry hn he nofun fun _ _ => haim
        · rename_i hlast
          have hl : aim = .entry → rest ≠ [] := by simpa [and_comm] using hlast
          have plain' : ∀ m ∈ names target ++ rest, '/' ∉ m :=
            List.forall_mem_append.mpr ⟨fun _ => no_slash_of_mem_names, plain.2⟩
          obtain ⟨i, rfl, hi⟩ := hjump _ _ _ plain' h
          exact .follow hn ha he hl hi
      · rename_i e hdir hlink he
        split at h
        · rename_i hrest
          obtain rfl : rest = [] := by simpa using hrest
          cases h
          exact .entry hn he hdir fun target ht => absurd ht (hlink target)
        · cases h

theorem resolves_of_walk (plain : ∀ n ∈ xs, '/' ∉ n) (h : walk t aim k dir xs = .ok place) :
    t.Resolves aim k dir xs place := by
  induction k generalizing dir xs place with
  | zero => exact resolves_of_walkNames (fun _ _ _ _ h' => by cases h') plain h
  | succ k ih =>
      exact resolves_of_walkNames (fun _ _ _ plain' h' => ⟨k, rfl, ih plain' h'⟩) plain h

/-- A walk over the names of a path succeeds by the rules, and only so. -/
theorem walk_eq_ok_iff (plain : ∀ n ∈ xs, '/' ∉ n) :
    walk t aim k dir xs = .ok place ↔ t.Resolves aim k dir xs place :=
  ⟨resolves_of_walk plain, Resolves.walk⟩

/-! Directories on the way. -/

theorem Leads.trans (h : t.Leads i dir xs d) (h' : t.Leads j d ys d') :
    t.Leads (i + j) dir (xs ++ ys) d' := by
  induction h with
  | here => rwa [Nat.zero_add]
  | idle hn _ ih => exact .idle hn (ih h')
  | up _ ih => exact .up (ih h')
  | down hn he _ ih => exact .down hn he (ih h')
  | follow hn he _ ih =>
      rw [List.append_assoc] at ih
      rw [Nat.succ_add]
      exact .follow hn he (ih h')

theorem Leads.unique (h : t.Leads i dir xs d) (h' : t.Leads j dir xs d') : d = d' := by
  induction h generalizing j with
  | here => cases h'; rfl
  | idle hn _ ih =>
      cases h' with
      | idle _ h' => exact ih h'
      | up => simp at hn
      | down hs | follow hs => exact absurd hn hs.not_idle
  | up _ ih =>
      cases h' with
      | idle hn => simp at hn
      | up h' => exact ih h'
      | down hs | follow hs => exact absurd rfl hs.ne_up
  | down hs he _ ih =>
      cases h' with
      | idle hn => exact absurd hn hs.not_idle
      | up => exact absurd rfl hs.ne_up
      | down _ _ h' => exact ih h'
      | follow _ he' => simp [he] at he'
  | follow hs he _ ih =>
      cases h' with
      | idle hn => exact absurd hn hs.not_idle
      | up => exact absurd rfl hs.ne_up
      | down _ he' => simp [he] at he'
      | follow _ he' h' =>
          obtain rfl : _ = _ := by simpa [he] using he'
          exact ih h'

theorem eq_of_append_name (h : xs ++ [name] = n :: rest) :
    xs = [] ∧ name = n ∧ rest = [] ∨ ∃ xs', xs = n :: xs' ∧ rest = xs' ++ [name] := by
  cases xs with
  | nil => simpa [eq_comm] using h
  | cons x xs =>
      obtain ⟨rfl, rfl⟩ := List.cons_eq_cons.mp h
      exact .inr ⟨xs, rfl, rfl⟩

/-- A successful walk that ends with a proper name comes to the directory where it looks for
that name. -/
theorem Resolves.split (hn : IsName name) (h : t.Resolves aim k dir (xs ++ [name]) place) :
    ∃ i j d, i + j = k ∧ t.Leads i dir xs d ∧ t.Resolves aim j d [name] place := by
  generalize hys : xs ++ [name] = ys at h
  -- A link that is followed puts the names of its target before the others.
  induction h generalizing xs with
  | done => simp at hys
  | @idle k dir n rest place hidle h ih =>
      obtain ⟨-, rfl, -⟩ | ⟨xs, rfl, rfl⟩ := eq_of_append_name hys
      · exact absurd hidle hn.not_idle
      · obtain ⟨i, j, d, hk, hl, hr⟩ := ih rfl
        exact ⟨i, j, d, hk, .idle hidle hl, hr⟩
  | up h ih =>
      obtain ⟨-, rfl, -⟩ | ⟨xs, rfl, rfl⟩ := eq_of_append_name hys
      · exact absurd rfl hn.ne_up
      · obtain ⟨i, j, d, hk, hl, hr⟩ := ih rfl
        exact ⟨i, j, d, hk, .up hl, hr⟩
  | down hs ha he h ih =>
      obtain ⟨rfl, rfl, rfl⟩ | ⟨xs, rfl, rfl⟩ := eq_of_append_name hys
      · exact ⟨0, _, _, Nat.zero_add _, .here, .down hs ha he h⟩
      · obtain ⟨i, j, d, hk, hl, hr⟩ := ih rfl
        exact ⟨i, j, d, hk, .down hs he hl, hr⟩
  | follow hs ha he hlast h ih =>
      obtain ⟨rfl, rfl, rfl⟩ | ⟨xs, rfl, rfl⟩ := eq_of_append_name hys
      · exact ⟨0, _, _, Nat.zero_add _, .here, .follow hs ha he hlast h⟩
      · obtain ⟨i, j, d, hk, hl, hr⟩ := ih (List.append_assoc ..)
        exact ⟨i + 1, j, d, by omega, .follow hs he hl, hr⟩
  | entry hs he hd hl =>
      obtain ⟨rfl, rfl, -⟩ | ⟨xs, rfl, hnil⟩ := eq_of_append_name hys
      · exact ⟨0, _, _, Nat.zero_add _, .here, .entry hs he hd hl⟩
      · simp at hnil
  | absent hs ha he hr =>
      obtain ⟨rfl, rfl, rfl⟩ | ⟨xs, rfl, rfl⟩ := eq_of_append_name hys
      · exact ⟨0, _, _, Nat.zero_add _, .here, .absent hs ha he hr⟩
      · exact absurd (hr name (by simp)) hn.ne_nil

/-- What follows a way to a directory is looked for there. -/
theorem Leads.resolves (h : t.Leads i dir xs d) (hn : IsName name)
    (h' : t.Resolves aim j d [name] place) : t.Resolves aim (i + j) dir (xs ++ [name]) place := by
  induction h with
  | here => rwa [Nat.zero_add]
  | idle hidle _ ih => exact .idle hidle (ih h')
  | up _ ih => exact .up (ih h')
  | down hs he _ ih => exact .down hs (Aim.allows_append_name hn) he (ih h')
  | follow hs he _ ih =>
      rw [List.append_assoc] at ih
      rw [Nat.succ_add]
      exact .follow hs (Aim.allows_append_name hn) he (fun _ => by simp) (ih h')

/-! The last name. -/

/-- Where a proper name leads if a link with that name is not followed. -/
def lookup (t : FileTree) (dir : Location) (n : Text) : Place :=
  if (t.at? (n :: dir)).isSome then .found (n :: dir) else .absent dir n false

theorem Resolves.storable (hn : IsName name) (h : t.Resolves aim k dir [name] place) :
    Storable name := by
  cases h with
  | idle hidle => exact absurd hidle hn.not_idle
  | up => exact absurd rfl hn.ne_up
  | down hs | follow hs | entry hs | absent hs => exact hs

theorem resolves_entry_iff (hs : Storable name) :
    t.Resolves .entry k dir [name] place ↔ place = t.lookup dir name := by
  constructor
  · intro h
    cases h with
    | idle hidle => exact absurd hidle hs.not_idle
    | up => exact absurd rfl hs.ne_up
    | down _ _ he h =>
        cases h
        simp [lookup, he]
    | follow _ _ _ hlast => exact absurd rfl (hlast rfl)
    | entry _ he => simp [lookup, he]
    | absent _ _ he => simp [lookup, he]
  · rintro rfl
    cases he : t.at? (name :: dir) with
    | none =>
        simp only [lookup, he]
        exact .absent hs Aim.allows_nil he (by simp)
    | some e =>
        simp only [lookup, he]
        by_cases hd : e = .directory
        · exact .down hs Aim.allows_nil (hd ▸ he) .done
        · exact .entry hs he hd fun _ _ => rfl

/-- A name that is not there is nowhere, whatever the walk is for. -/
theorem Resolves.eq_absent (hn : IsName name) (h : t.Resolves aim k dir [name] place)
    (he : t.at? (name :: dir) = none) : place = .absent dir name false := by
  cases h with
  | idle hidle => exact absurd hidle hn.not_idle
  | up => exact absurd rfl hn.ne_up
  | down _ _ he' | follow _ _ he' | entry _ he' => simp [he] at he'
  | absent => rfl

theorem Resolves.at?_eq_none {slash : Bool} (h : t.Resolves aim k dir xs (.absent d n slash)) :
    t.at? (n :: d) = none := by
  generalize hplace : Place.absent d n slash = place at h
  induction h with
  | done | entry => cases hplace
  | idle _ _ ih | up _ ih | down _ _ _ _ ih | follow _ _ _ _ _ ih => exact ih hplace
  | absent _ _ he =>
      cases hplace
      exact he

/-! Names in the directory that a path leads to. -/

/-- The path of a directory leads to its location, through so many links. -/
def LeadsTo (t : FileTree) (k : Nat) (root : Path) (d : Location) : Prop :=
  t.Leads k (t.start root) (dirNames root) d

theorem LeadsTo.unique {root : Path} (h : t.LeadsTo i root d) (h' : t.LeadsTo j root d') : d = d' :=
  Leads.unique h h'

theorem start_join (t : FileTree) {root : Path} (hn : IsName name) :
    t.start (join root name) = t.start root := by
  rw [start, start, isAbsolute_join root hn.no_slash]

theorem exists_leadsTo {root : Path} (hn : IsName name)
    (h : walk t aim k (t.start (join root name)) (names (join root name)) = .ok place) :
    ∃ i j d, i + j = k ∧ t.LeadsTo i root d ∧ t.Resolves aim j d [name] place := by
  have hwalk := resolves_of_walk (fun _ => no_slash_of_mem_names) h
  rw [names_join root hn.no_slash, start_join t hn] at hwalk
  exact hwalk.split hn

theorem LeadsTo.walk_join {root : Path} (h : t.LeadsTo i root d) (hn : IsName name)
    (h' : t.Resolves aim j d [name] place) :
    walk t aim (i + j) (t.start (join root name)) (names (join root name)) = .ok place := by
  rw [names_join root hn.no_slash, start_join t hn]
  exact (Leads.resolves h hn h').walk

/-! Larger trees. -/

/-- Whatever `t` holds, `u` holds at the same location. -/
structure Within (t u : FileTree) : Prop where
  here : u.here = t.here
  keeps : ∀ l e, t.at? l = some e → u.at? l = some e

theorem Within.refl (t : FileTree) : t.Within t := ⟨rfl, fun _ _ h => h⟩

theorem Within.trans {v : FileTree} (h : t.Within u) (h' : u.Within v) : t.Within v :=
  ⟨h'.here.trans h.here, fun l e he => h'.keeps l e (h.keeps l e he)⟩

theorem Within.at?_eq_none (w : t.Within u) {l : Location} (h : u.at? l = none) :
    t.at? l = none := by
  cases he : t.at? l with
  | none => rfl
  | some e => simp [w.keeps l e he] at h

theorem Leads.mono (w : t.Within u) (h : t.Leads k dir xs d) : u.Leads k dir xs d := by
  induction h with
  | here => exact .here
  | idle hn _ ih => exact .idle hn ih
  | up _ ih => exact .up ih
  | down hs he _ ih => exact .down hs (w.keeps _ _ he) ih
  | follow hs he _ ih => exact .follow hs (w.keeps _ _ he) ih

theorem Within.start_eq (w : t.Within u) (p : Path) : u.start p = t.start p := by
  rw [start, start, w.here]

theorem LeadsTo.mono {root : Path} (w : t.Within u) (h : t.LeadsTo k root d) :
    u.LeadsTo k root d := by
  rw [LeadsTo, w.start_eq]
  exact Leads.mono w h

/-- What is found stays where it is. What is absent may be found in the larger tree. -/
theorem Resolves.mono (w : t.Within u) {l : Location} (h : t.Resolves aim k dir xs (.found l)) :
    u.Resolves aim k dir xs (.found l) := by
  generalize hplace : Place.found l = place at h
  induction h with
  | done => exact .done
  | idle hn _ ih => exact .idle hn (ih hplace)
  | up _ ih => exact .up (ih hplace)
  | down hs ha he _ ih => exact .down hs ha (w.keeps _ _ he) (ih hplace)
  | follow hs ha he hl _ ih => exact .follow hs ha (w.keeps _ _ he) hl (ih hplace)
  | entry hs he hd hl => exact .entry hs (w.keeps _ _ he) hd hl
  | absent => cases hplace

/-! Locations. -/

/-- A chain of directories stands down to the location, each in the one before it. -/
def Opens (t : FileTree) : Location → Prop
  | [] => True
  | n :: dir => Storable n ∧ t.at? (n :: dir) = some .directory ∧ t.Opens dir

/-- No name in the directory is the location's. -/
def Outside (d l : Location) : Prop := ∀ n, l ≠ n :: d

theorem outside_or (d l : Location) : Outside d l ∨ ∃ n, l = n :: d := by
  by_cases h : ∃ n, l = n :: d
  · exact .inr h
  · exact .inl fun n hn => h ⟨n, hn⟩

theorem outside_self (d : Location) : Outside d d := fun n h => by
  have hlength := congrArg List.length h
  simp at hlength

theorem Opens.tail {l : Location} (h : t.Opens l) : t.Opens l.tail := by
  cases l with
  | nil => trivial
  | cons n dir => exact h.2.2

theorem Opens.origin (h : t.Opens dir) (target : Path) : t.Opens (origin dir target) := by
  unfold FileTree.origin
  split
  · trivial
  · exact h

theorem Opens.no_slash (h : t.Opens dir) : ∀ n ∈ dir, '/' ∉ n := by
  induction dir with
  | nil => simp
  | cons n dir ih => exact List.forall_mem_cons.mpr ⟨h.1.no_slash, ih h.2.2⟩

theorem Opens.mono (w : t.Within u) (h : t.Opens d) : u.Opens d := by
  induction d with
  | nil => trivial
  | cons n d ih => exact ⟨h.1, w.keeps _ _ h.2.1, ih h.2.2⟩

theorem Opens.leads (h : t.Opens dir) : t.Leads 0 [] dir.reverse dir := by
  induction dir with
  | nil => exact .here
  | cons n dir ih =>
      rw [List.reverse_cons]
      exact (ih h.2.2).trans (.down h.1 h.2.1 .here)

/-- A walk that starts in such a directory stays in such directories. -/
theorem Resolves.opens {l : Location} (h : t.Resolves aim k dir xs (.found l))
    (hdir : t.Opens dir) : l = [] ∨ ∃ n d, l = n :: d ∧ Storable n ∧ t.Opens d := by
  generalize hplace : Place.found l = place at h
  induction h with
  | done =>
      cases hplace
      cases l with
      | nil => exact .inl rfl
      | cons n d => exact .inr ⟨n, d, rfl, hdir.1, hdir.2.2⟩
  | idle _ _ ih => exact ih hdir hplace
  | up _ ih => exact ih hdir.tail hplace
  | down hs _ he _ ih => exact ih ⟨hs, he, hdir⟩ hplace
  | follow _ _ _ _ _ ih => exact ih (hdir.origin _) hplace
  | entry hs =>
      cases hplace
      exact .inr ⟨_, _, rfl, hs, hdir⟩
  | absent => cases hplace

/-- The path of a location leads there without a link. -/
theorem Opens.resolves_pathOf {e : Entry} (h : t.Opens d) (hs : Storable name)
    (he : t.at? (name :: d) = some e) (hd : e ≠ .directory) (hl : ∀ target, e ≠ .link target) :
    t.Resolves aim k [] (names (pathOf (name :: d))) (.found (name :: d)) := by
  have plain : ∀ n ∈ name :: d, '/' ∉ n :=
    List.forall_mem_cons.mpr ⟨hs.no_slash, h.no_slash⟩
  rw [names_pathOf plain (List.cons_ne_nil name d), List.reverse_cons]
  have last : t.Resolves aim k d [name] (.found (name :: d)) :=
    .entry hs he hd fun target ht => absurd ht (hl target)
  have whole := h.leads.resolves hs.toIsName last
  rw [Nat.zero_add] at whole
  exact .idle (.inl rfl) whole

end FileTree
end Horizon
