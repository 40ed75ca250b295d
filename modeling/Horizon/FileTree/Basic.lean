import Horizon.Path

/-!
File trees: directories, files, symbolic links and two kinds of devices, each at a
location. A location is the list of names down to an entry, the innermost first, and no
name in it is a link, so an entry has exactly one.
-/

namespace Horizon

abbrev Location := List Text

inductive Entry where
  | directory
  | file (content : Bytes) (executable : Bool)
  | link (target : Path)
  /-- A device that reads as empty and keeps nothing that is written. -/
  | sink
  /-- A device that stands for a descriptor of the process that opens it, which is its
  standard input, standard output and error stream for 0, 1 and 2. -/
  | descriptor (number : Nat)
deriving DecidableEq

namespace Entry

def isDirectory : Entry → Bool
  | .directory => true
  | _ => false

def isDevice : Entry → Bool
  | .sink | .descriptor _ => true
  | _ => false

end Entry

abbrev Entries := List (Location × Entry)

structure FileTree where
  /-- The entries by the length of their locations. -/
  levels : List Entries := []
  /-- Where relative paths start. -/
  here : Location := []

namespace FileTree

/-- The first entry listed for a location. -/
def find (l : Location) : Entries → Option Entry
  | [] => none
  | (k, e) :: r => if k = l then some e else find l r

def without (l : Location) (entries : Entries) : Entries := entries.filter fun p => p.1 ≠ l

/-- Changes the level of a number, with those before it if they are not there. -/
def modifyLevel (f : Entries → Entries) : Nat → List Entries → List Entries
  | 0, [] => [f []]
  | 0, level :: levels => f level :: levels
  | n + 1, [] => [] :: modifyLevel f n []
  | n + 1, level :: levels => level :: modifyLevel f n levels

/-- The entries whose locations have so many names. -/
def level (t : FileTree) (n : Nat) : Entries := t.levels.getD n []

def entries (t : FileTree) : Entries := t.levels.flatten

/-- The entry at a location; the root is always a directory. -/
def at? (t : FileTree) (l : Location) : Option Entry :=
  if l = [] then some .directory else find l (t.level l.length)

/-- Puts an entry at a location, in the place of what was there. -/
def put (t : FileTree) (l : Location) (e : Entry) : FileTree :=
  { t with levels := modifyLevel (fun level => (l, e) :: without l level) l.length t.levels }

/-- Takes away what is at a location. -/
def erase (t : FileTree) (l : Location) : FileTree :=
  { t with levels := modifyLevel (without l) l.length t.levels }

/-- The tree of a list of entries; the first one listed for a location counts. -/
def ofEntries (entries : Entries) : FileTree :=
  entries.foldr (fun p t => t.put p.1 p.2) {}

theorem find_without (l m : Location) (entries : Entries) :
    find m (without l entries) = if m = l then none else find m entries := by
  induction entries with
  | nil => simp [find, without]
  | cons p ps ih =>
      obtain ⟨k, e⟩ := p
      simp only [without] at ih ⊢
      by_cases hk : k = l <;> by_cases hm : k = m <;> simp_all [find]

theorem getD_modifyLevel (f : Entries → Entries) (n m : Nat) (levels : List Entries) :
    (modifyLevel f n levels).getD m [] =
      if m = n then f (levels.getD n []) else levels.getD m [] := by
  induction n generalizing m levels with
  | zero => cases levels <;> cases m <;> simp [modifyLevel]
  | succ n ih => cases levels <;> cases m <;> simp_all [modifyLevel]

theorem level_put (t : FileTree) (l : Location) (e : Entry) (n : Nat) :
    (t.put l e).level n =
      if n = l.length then (l, e) :: without l (t.level l.length) else t.level n :=
  getD_modifyLevel ..

theorem level_erase (t : FileTree) (l : Location) (n : Nat) :
    (t.erase l).level n = if n = l.length then without l (t.level l.length) else t.level n :=
  getD_modifyLevel ..

theorem at?_put {t : FileTree} {l m : Location} {e : Entry} (hl : l ≠ []) :
    (t.put l e).at? m = if m = l then some e else t.at? m := by
  by_cases hm : m = l
  · subst hm; simp [at?, level_put, find, hl]
  · have hm' : ¬l = m := fun h => hm h.symm
    by_cases hn : m.length = l.length <;>
      simp [at?, level_put, find, find_without, hm, hm', hn]

theorem at?_erase {t : FileTree} {l m : Location} (hl : l ≠ []) :
    (t.erase l).at? m = if m = l then none else t.at? m := by
  by_cases hm : m = l
  · subst hm; simp [at?, level_erase, find_without, hl]
  · by_cases hn : m.length = l.length <;>
      simp [at?, level_erase, find_without, hm, hn]

end FileTree
end Horizon
