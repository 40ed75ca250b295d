import Horizon.FileTree.Resolve
import Horizon.Text.Utf8

/-!
Changes to a file tree. An operation gives its result, or the error it ends with, and
the tree it leaves; a failed one may have done part of its work.
-/

namespace Horizon

/-- An operation on a file tree. -/
abbrev FileOp (α : Type) := ExceptT FileError (StateM FileTree) α

namespace FileOp

/-- A question about the tree, which leaves it as it is. -/
def ask {α : Type} (question : FileTree → Except FileError α) : FileOp α :=
  fun t => (question t, t)

/-- A change that either fails and leaves the tree as it is, or succeeds. -/
def change {α : Type} (f : FileTree → Except FileError (α × FileTree)) : FileOp α :=
  fun t =>
    match f t with
    | .error e => (.error e, t)
    | .ok (a, t') => (.ok a, t')

end FileOp

namespace FileTree

/-- The text of the file a path leads to. -/
def readText (t : FileTree) (p : Path) : Except FileError Text :=
  match t.readBytes p with
  | .error e => .error e
  | .ok bytes => (Utf8.decode? bytes).elim (.error .notText) .ok

/-- Drops the empty names at the end. -/
def withoutSlashes (names : List Text) : List Text :=
  (names.reverse.dropWhile List.isEmpty).reverse

/-- Empties the file a path leads to, or makes one that is not there; gives its location.
What is written to a device is not kept; of the descriptors, those of the standard output
and of the error stream are open for writing. -/
def openForWriting (p : Path) (executable : Bool) : FileOp Location := FileOp.change fun t =>
  match t.locate .file p with
  | .error e => .error e
  | .ok (.absent dir name _) =>
      .ok (name :: dir, t.put (name :: dir) (.file [] executable))
  | .ok (.found l) =>
      match t.at? l with
      | some (.file _ mode) => .ok (l, t.put l (.file [] mode))
      | some .sink | some (.descriptor 1) | some (.descriptor 2) => .ok (l, t)
      | some .directory => .error .isADirectory
      | _ => .error .notFound

/-- Writes over the content of the file at a location, from its start on. -/
def overwrite (t : FileTree) (l : Location) (content : Bytes) : FileTree :=
  match t.at? l with
  | some (.file old mode) => t.put l (.file (content ++ old.drop content.length) mode)
  | _ => t

def writeBytes (p : Path) (content : Bytes) : FileOp Unit := do
  let l ← openForWriting p false
  modify fun t => t.overwrite l content

def writeText (p : Path) (text : Text) : FileOp Unit := writeBytes p (Utf8.encode text)

def makeDirectory (p : Path) : FileOp Unit := FileOp.change fun t =>
  match checkedNames p with
  | .error e => .error e
  | .ok names =>
      match walk t .entry linkLimit (t.start p) (withoutSlashes names) with
      | .error e => .error e
      | .ok (.found _) => .error .alreadyExists
      | .ok (.absent dir name _) => .ok ((), t.put (name :: dir) .directory)

/-- Accepts that a directory is there already. -/
def makeDirectoryUnlessThere (p : Path) : FileOp Unit := do
  tryCatch (makeDirectory p) fun e => do
    if (← get).isDirectoryAt p then return () else throw e

/-- Makes a directory with the parents it lacks; `parents` are those of `p`, the nearest
first. The empty path needs nothing. -/
def makeDirectoriesBelow (p : Path) (parents : List Path) : FileOp Unit :=
  if p.isEmpty then return ()
  else
    match parents with
    | [] => makeDirectoryUnlessThere p
    | q :: parents =>
        tryCatch (makeDirectory p) fun e => do
          if e = .notFound then
            makeDirectoriesBelow q parents
            makeDirectoryUnlessThere p
          else if (← get).isDirectoryAt p then return ()
          else throw e

/-- Makes a directory with all the parents it lacks. -/
def makeDirectories (p : Path) : FileOp Unit := makeDirectoriesBelow p (Path.ancestors p)

def makeLink (target p : Path) : FileOp Unit := FileOp.change fun t =>
  if target.contains (Char.ofNat 0) || p.contains (Char.ofNat 0) then .error .nulInPath
  else if target.isEmpty then .error .notFound
  else if pathLimit ≤ Text.byteSize target then .error .nameTooLong
  else
    match checkedNames p with
    | .error e => .error e
    | .ok names =>
        match walk t .entry linkLimit (t.start p) (withoutSlashes names) with
        | .error e => .error e
        | .ok (.found _) => .error .alreadyExists
        | .ok (.absent dir name _) =>
            if names.getLast?.any List.isEmpty then .error .notFound
            else .ok ((), t.put (name :: dir) (.link target))

/-- Takes away a file or a link. -/
def remove (p : Path) : FileOp Unit := FileOp.change fun t =>
  match t.existing .entry p with
  | .error e => .error e
  | .ok l =>
      match t.at? l with
      | some .directory => .error .isADirectory
      | some _ => .ok ((), t.erase l)
      | none => .error .notFound

/-- The content and the mode of the regular file a path leads to. -/
def regularFile (t : FileTree) (p : Path) : Except FileError (Bytes × Bool) :=
  match t.status .target p with
  | .error e => .error e
  | .ok (.file content mode) => .ok (content, mode)
  | .ok _ => .error .notRegular

/-- Copies a regular file with its mode. -/
def copy (source target : Path) : FileOp Unit := do
  let file ← FileOp.ask fun t => t.regularFile source
  let l ← openForWriting target file.2
  modify fun t => t.put l (.file file.1 file.2)

end FileTree
end Horizon
