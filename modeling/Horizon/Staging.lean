import Horizon.FileTree.Operation

/-!
Staging: background files are brought into the directory of a query, linked if they are
shared with it and copied if the query is to have its own. Each file keeps its name, and
an older entry of that name gives way unless it is a directory.
-/

namespace Horizon

structure Staged where
  path : Path
  /-- Where the files are now: the linked ones, then the copied ones. -/
  files : List Path
deriving DecidableEq, Repr

namespace Staging

open FileTree

/-- Where a source goes. -/
def target (root source : Path) : Except FileError Path :=
  match Path.fileName? source with
  | some name => .ok (Path.join root name)
  | none => .error (.namesNoFile source)

/-- Removes a file or a link that is in the way. -/
def clear (p : Path) : FileOp Unit := do
  match (← get).status .entry p with
  | .ok .directory => throw (.targetIsDirectory p)
  | .ok _ => remove p
  | .error .notFound => return ()
  | .error e => throw e

/-- Links to the source itself, past any links that lead to it. -/
def link (source target : Path) : FileOp Unit := do
  let origin ← FileOp.ask fun t => t.canonical source
  makeLink origin target

def place (put : Path → Path → FileOp Unit) (root source : Path) : FileOp Path := do
  let p ← FileOp.ask fun _ => target root source
  clear p
  put source p
  return p

def placeAll (put : Path → Path → FileOp Unit) (root : Path) : List Path → FileOp (List Path)
  | [] => return []
  | source :: sources => do
      let p ← place put root source
      let rest ← placeAll put root sources
      return p :: rest

/-- Brings files into the directory `root`, which is made if it is not there. -/
def stage (root : Path) (linkFiles copyFiles : List Path) : FileOp Staged := do
  makeDirectories root
  let linked ← placeAll link root linkFiles
  let copied ← placeAll copy root copyFiles
  return ⟨root, linked ++ copied⟩

end Staging
end Horizon
