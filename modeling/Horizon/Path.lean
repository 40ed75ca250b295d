import Horizon.Text.Basic

/-!
Paths as texts. A path is never normalized when it is joined; its last name and its
parent are found by components, which repeated slashes, a final slash and a final `.`
do not count among.
-/

namespace Horizon

abbrev Path := Text

namespace Path

def isAbsolute (p : Path) : Bool := p.head? == some '/'

/-- `p` seen from the directory `dir`: an absolute `p` stands alone, and a slash is put
between the two unless `dir` is empty or ends in one. -/
def join (dir p : Path) : Path :=
  if isAbsolute p then p
  else
    match dir.getLast? with
    | none => p
    | some '/' => dir ++ p
    | some _ => dir ++ '/' :: p

/-- A path in two parts: a root slash or a leading `.` component, and the body after it. -/
def split (p : Path) : Path × Path :=
  match p with
  | '/' :: body => (['/'], body)
  | ['.'] => (['.'], [])
  | '.' :: '/' :: body => (['.'], '/' :: body)
  | body => ([], body)

/-- Drops, from the end of a reversed body, the slashes and the `.` components. -/
def dropIdle : Text → Text
  | [] => []
  | '/' :: r => dropIdle r
  | ['.'] => []
  | '.' :: '/' :: r => dropIdle r
  | c :: r => c :: r

/-- The lead of a path and its reversed body, which ends in a component that counts. -/
def trimmed (p : Path) : Path × Text := ((split p).1, dropIdle (split p).2.reverse)

/-- The last component, unless it is `..` or there is none. -/
def fileName? (p : Path) : Option Text :=
  match (trimmed p).2.takeWhile (· ≠ '/') with
  | [] => none
  | ['.', '.'] => none
  | name => some name.reverse

/-- The path without its last component. -/
def parent? (p : Path) : Option Path :=
  match trimmed p with
  | (['.'], []) => some []
  | (_, []) => none
  | (start, body) => some (start ++ (dropIdle (body.dropWhile (· ≠ '/'))).reverse)

/-- The parents of a path from the nearest on, at most as many as the first argument says. -/
def ancestorsWithin : Nat → Path → List Path
  | 0, _ => []
  | n + 1, p =>
      match parent? p with
      | none => []
      | some q => q :: ancestorsWithin n q

/-- The parents of a path, the nearest first; each is shorter than the one before. -/
def ancestors (p : Path) : List Path := ancestorsWithin (p.length + 1) p

/-- The names a path is made of, with empty ones where slashes meet or end it. -/
def names (p : Path) : List Text := Text.pieces '/' p

end Path
end Horizon
