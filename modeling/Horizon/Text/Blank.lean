import Horizon.Text.Basic

/-!
White space by the Unicode property `White_Space`, and the operations that depend on
it: trimming a text and cutting it into words.
-/

namespace Horizon
namespace Text

/-- The characters with the Unicode property `White_Space`. -/
def isBlank (c : Char) : Bool :=
  let n := c.toNat
  (9 ≤ n && n ≤ 13) || n == 0x20 || n == 0x85 || n == 0xA0 || n == 0x1680 ||
    (0x2000 ≤ n && n ≤ 0x200A) || n == 0x2028 || n == 0x2029 || n == 0x202F ||
    n == 0x205F || n == 0x3000

def trimStart (s : Text) : Text := s.dropWhile isBlank

def trimEnd (s : Text) : Text := (s.reverse.dropWhile isBlank).reverse

def trim (s : Text) : Text := trimEnd (trimStart s)

/-- The maximal runs of characters that are not blank. -/
def words (s : Text) : List Text := (s.splitOnP isBlank).filter fun w => !w.isEmpty

/-- A blank ends the word before it and begins none. -/
theorem words_append_blank {c : Char} (hc : isBlank c = true) (s t : Text) :
    words (s ++ c :: t) = words s ++ words t := by
  simp [words, List.splitOnP_append_cons, hc]

/-- ASCII capitals become small letters; every other character stays. -/
def lower (s : Text) : Text := s.map Char.toLower

end Text
end Horizon
