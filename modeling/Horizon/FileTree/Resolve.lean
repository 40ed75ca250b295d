import Horizon.FileTree.Basic
import Horizon.FileTree.Error

/-!
From a path to a place in a file tree. Names are taken one after another; a link on the
way is replaced by its target, at most forty times in all. A link in the last place is
kept if the caller asks about the link itself, and a slash after the last name is refused
if the caller wants a file there.
-/

namespace Horizon
namespace FileTree

/-- Where a path leads: to an entry, or to a directory that lacks the last name. -/
inductive Place where
  | found (l : Location)
  /-- `slash` says that a slash follows the missing name. -/
  | absent (dir : Location) (name : Text) (slash : Bool)
deriving DecidableEq, Repr

/-- What a caller wants to find in the last place. -/
inductive Aim where
  /-- The entry itself, be it a link. -/
  | entry
  /-- What is there once links are followed. -/
  | target
  /-- A file to write, which is made if it is not there. -/
  | file
deriving DecidableEq, Repr

/-- The longest name that a directory holds, in bytes. -/
def nameLimit : Nat := 255

/-- A path takes fewer bytes than this. -/
def pathLimit : Nat := 4096

def linkLimit : Nat := 40

/-- Follows names from a directory on, leaving links to `jump`, which gets the directory
where the target starts and the names still to be followed. -/
def walkNames (t : FileTree) (aim : Aim)
    (jump : Location → List Text → Except FileError Place) :
    Location → List Text → Except FileError Place
  | dir, [] => .ok (.found dir)
  | dir, n :: rest =>
      if n = [] || n = ['.'] then walkNames t aim jump dir rest
      else if n = ['.', '.'] then walkNames t aim jump dir.tail rest
      else if aim = .file && !rest.isEmpty && rest.all List.isEmpty then .error .isADirectory
      else if nameLimit < Text.byteSize n then .error .nameTooLong
      else
        match t.at? (n :: dir) with
        | none =>
            if rest.all List.isEmpty then .ok (.absent dir n !rest.isEmpty) else .error .notFound
        | some .directory => walkNames t aim jump (n :: dir) rest
        | some (.link target) =>
            if rest.isEmpty && aim = .entry then .ok (.found (n :: dir))
            else jump (if Path.isAbsolute target then [] else dir) (Path.names target ++ rest)
        | some _ => if rest.isEmpty then .ok (.found (n :: dir)) else .error .notADirectory

/-- Follows names from a directory on, through at most so many links. -/
def walk (t : FileTree) (aim : Aim) : Nat → Location → List Text → Except FileError Place
  | 0 => walkNames t aim fun _ _ => .error .tooManyLinks
  | n + 1 => walkNames t aim (walk t aim n)

/-- The names of a path of any length. -/
def pathNames (p : Path) : Except FileError (List Text) :=
  if p.contains (Char.ofNat 0) then .error .nulInPath
  else if p.isEmpty then .error .notFound
  else .ok (Path.names p)

/-- The names of a path that the system takes. -/
def checkedNames (p : Path) : Except FileError (List Text) :=
  match pathNames p with
  | .error e => .error e
  | .ok names => if pathLimit ≤ Text.byteSize p then .error .nameTooLong else .ok names

def start (t : FileTree) (p : Path) : Location := if Path.isAbsolute p then [] else t.here

/-- Where a path leads. -/
def locate (t : FileTree) (aim : Aim) (p : Path) : Except FileError Place :=
  match checkedNames p with
  | .error e => .error e
  | .ok names => walk t aim linkLimit (t.start p) names

/-- The location of the entry a path leads to. -/
def existing (t : FileTree) (aim : Aim) (p : Path) : Except FileError Location :=
  match t.locate aim p with
  | .error e => .error e
  | .ok (.found l) => .ok l
  | .ok (.absent ..) => .error .notFound

/-- The entry a path leads to. -/
def status (t : FileTree) (aim : Aim) (p : Path) : Except FileError Entry :=
  match t.existing aim p with
  | .error e => .error e
  | .ok l => (t.at? l).elim (.error .notFound) .ok

def isDirectoryAt (t : FileTree) (p : Path) : Bool :=
  match t.status .target p with
  | .ok e => e.isDirectory
  | .error _ => false

/-- The path that names a location and passes through no link. -/
def pathOf (l : Location) : Path :=
  if l.isEmpty then ['/'] else l.reverse.flatMap fun n => '/' :: n

/-- The path without links that leads where `p` does. Only the result has a limit, since
the names of `p` are followed one by one. -/
def canonical (t : FileTree) (p : Path) : Except FileError Path :=
  match pathNames p with
  | .error e => .error e
  | .ok names =>
      match walk t .target linkLimit (t.start p) names with
      | .error e => .error e
      | .ok (.absent ..) => .error .notFound
      | .ok (.found l) =>
          if pathLimit ≤ Text.byteSize (pathOf l) then .error .nameTooLong else .ok (pathOf l)

/-- The content of the file a path leads to. -/
def readBytes (t : FileTree) (p : Path) : Except FileError Bytes :=
  match t.status .target p with
  | .error e => .error e
  | .ok (.file content _) => .ok content
  | .ok .sink => .ok []
  | .ok .directory => .error .isADirectory
  | .ok (.link _) => .error .tooManyLinks
  | .ok (.descriptor _) => .error .notFound

end FileTree
end Horizon
