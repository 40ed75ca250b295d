import Horizon.Atom.Basic
import Horizon.Atom.Grammar
import Horizon.Text.Blank

/-!
Reading atoms. Every reader takes the longest piece of its kind from the front of a
text and returns it with what follows. Where a name is followed by a parenthesis that
starts no argument list, the name alone is read and the parenthesis is left.
-/

namespace Horizon

/-- Why a text is no atom or no fluent; each cause carries the text as it was given. -/
inductive ReadError where
  | malformedAtom (text : Text)
  | missingTimeStep (text : Text)
deriving DecidableEq, Repr

namespace ReadError

def message : ReadError → Text
  | .malformedAtom t => "malformed atom `".toList ++ t ++ "`".toList
  | .missingTimeStep t => '`' :: t ++ "` has no trailing time step".toList

end ReadError

namespace Reader

open Grammar

def identifier : Text → Option (Text × Text)
  | [] => none
  | c :: r =>
      if isNameStart c then some (c :: r.takeWhile isNameChar, r.dropWhile isNameChar) else none

def name : Text → Option (Text × Text)
  | '-' :: r => (identifier r).map fun p => ('-' :: p.1, p.2)
  | s => identifier s

def digits (s : Text) : Option (Text × Text) :=
  match s.takeWhile Char.isDigit with
  | [] => none
  | d :: ds => some (d :: ds, s.dropWhile Char.isDigit)

def integer : Text → Option (Text × Text)
  | '-' :: r => (digits r).map fun p => ('-' :: p.1, p.2)
  | s => digits s

def quotedTail : Text → Option (Text × Text)
  | [] => none
  | '"' :: r => some (['"'], r)
  | '\\' :: [] => none
  | '\\' :: c :: r =>
      if isEscapable c then (quotedTail r).map fun p => ('\\' :: c :: p.1, p.2) else none
  | c :: r => (quotedTail r).map fun p => (c :: p.1, p.2)

def quoted : Text → Option (Text × Text)
  | '"' :: r => (quotedTail r).map fun p => ('"' :: p.1, p.2)
  | _ => none

def constant (word s : Text) : Option (Text × Text) :=
  if word.isPrefixOf s then some (word, s.drop word.length) else none

/-- A piece that may hold several texts: what was taken, the texts in it, what follows. -/
abbrev Listing := Text × List Text × Text

/-- One term with the blanks around it. -/
def item (term : Text → Option (Text × Text)) (s : Text) : Option (Text × Text × Text) :=
  (term (s.dropWhile isSpace)).map fun p =>
    (s.takeWhile isSpace ++ p.1 ++ p.2.takeWhile isSpace, p.1, p.2.dropWhile isSpace)

/-- Further terms, each after a comma, at most as many as the first argument says. A comma
that no term follows is left. -/
def moreItems (term : Text → Option (Text × Text)) : Nat → Text → Listing
  | 0, s => ([], [], s)
  | n + 1, s =>
      match s with
      | ',' :: r =>
          match item term r with
          | none => ([], [], s)
          | some (u, t, r') =>
              let more := moreItems term n r'
              (',' :: (u ++ more.1), t :: more.2.1, more.2.2)
      | _ => ([], [], s)

def items (term : Text → Option (Text × Text)) (s : Text) : Listing :=
  match item term s with
  | none => ([], [], s)
  | some (u, t, r) =>
      let more := moreItems term r.length r
      (u ++ more.1, t :: more.2.1, more.2.2)

def arguments (term : Text → Option (Text × Text)) : Text → Option Listing
  | '(' :: s =>
      match items term s with
      | (u, ts, ')' :: r) => some ('(' :: (u ++ [')']), ts, r)
      | _ => none
  | _ => none

/-- A name and the arguments that may follow it. -/
def application (term : Text → Option (Text × Text)) (s : Text) : Option (Text × Listing) :=
  (name s).map fun p =>
    match arguments term p.2 with
    | none => (p.1, [], [], p.2)
    | some listing => (p.1, listing)

/-- A term nested less deep than the first argument says. -/
def termWithin : Nat → Text → Option (Text × Text)
  | 0, _ => none
  | n + 1, s =>
      (quoted s).or <| (integer s).or <| (constant infimum s).or <| (constant supremum s).or <|
        ((application (termWithin n) s).map fun p => (p.1 ++ p.2.1, p.2.2.2)).or <|
          (arguments (termWithin n) s).map fun p => (p.1, p.2.2)

/-- A term from the front of a text; no term nests deeper than its text is long. -/
def term (s : Text) : Option (Text × Text) := termWithin (s.length + 1) s

/-- The texts of a parenthesized list from the front of a text. -/
def argumentList (s : Text) : Option Listing := arguments (termWithin (s.length + 1)) s

/-- The whole text as one atom. -/
def atom? (s : Text) : Option Atom :=
  match application (termWithin (s.length + 1)) s with
  | some (n, _, parts, []) => some ⟨n, parts⟩
  | _ => none

end Reader

namespace Atom

/-- Reads one atom from a text, apart from blanks around it. -/
def read (s : Text) : Except ReadError Atom :=
  match Reader.atom? (Text.trim s) with
  | some a => .ok a
  | none => .error (.malformedAtom s)

end Atom
end Horizon
