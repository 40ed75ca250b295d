/-!
Text as a list of characters, and the search for a mark inside it. Everything the
library reads or writes is text of this kind; bytes appear only as file contents.
-/

namespace Horizon

/-- Text is the list of its characters, so functions on it recurse on data. -/
abbrev Text := List Char

/-- What a file holds. -/
abbrev Bytes := List UInt8

namespace Text

/-- What follows the first occurrence of `mark`, if there is one. -/
def after? (mark : Text) : Text → Option Text
  | [] => if mark.isEmpty then some [] else none
  | c :: r =>
      if mark.isPrefixOf (c :: r) then some ((c :: r).drop mark.length) else after? mark r

/-- Whether `mark` occurs anywhere in `s`. -/
def mentions (s mark : Text) : Bool := (after? mark s).isSome

/-- The pieces between the places where `sep` stands; there is always at least one. -/
def pieces (sep : Char) (s : Text) : List Text := s.splitOn sep

/-- The parts written one after another with `sep` between them. -/
def join (sep : Text) (parts : List Text) : Text := sep.intercalate parts

/-- Lexicographic comparison by code point. -/
def compare (s t : Text) : Ordering := List.compareLex Ord.compare s t

/-- How many bytes the text takes in UTF-8. -/
def byteSize (s : Text) : Nat := s.foldl (fun n c => n + c.utf8Size) 0

end Text
end Horizon
