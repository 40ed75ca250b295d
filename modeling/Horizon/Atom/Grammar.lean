import Horizon.Text.Basic

/-!
The grammar of atoms as relations on whole texts. A term is a quoted string, an
integer, one of two constants, a name with or without arguments, or a tuple; an
argument list may have blanks around each term, and they belong to no argument.
-/

namespace Horizon
namespace Grammar

/-- The characters a name starts with, after a possible minus sign. -/
def isNameStart (c : Char) : Bool := c.isAlpha || c == '_'

/-- The characters a name goes on with; code 39 is the apostrophe. -/
def isNameChar (c : Char) : Bool := c.isAlphanum || c == '_' || c == Char.ofNat 39

/-- The blanks allowed around a term inside parentheses. -/
def isSpace (c : Char) : Bool := c == ' ' || c == '\t' || c == '\r' || c == '\n'

/-- The characters that may follow a backslash in a quoted string. -/
def isEscapable (c : Char) : Bool := c == '\\' || c == '"' || c == 'n'

/-- The greatest and the least term, which have no other spelling. -/
def supremum : Text := "#sup".toList

def infimum : Text := "#inf".toList

inductive Identifier : Text → Prop
  | mk {c : Char} {r : Text} : isNameStart c = true → (∀ d ∈ r, isNameChar d = true) →
      Identifier (c :: r)

/-- A predicate or function name, negated if it starts with a minus sign. -/
inductive Name : Text → Prop
  | plain {s : Text} : Identifier s → Name s
  | negated {s : Text} : Identifier s → Name ('-' :: s)

inductive Digits : Text → Prop
  | mk {s : Text} : s ≠ [] → (∀ d ∈ s, d.isDigit = true) → Digits s

inductive Integer : Text → Prop
  | plain {s : Text} : Digits s → Integer s
  | negative {s : Text} : Digits s → Integer ('-' :: s)

/-- The inside of a quoted string together with the closing quote. -/
inductive QuotedTail : Text → Prop
  | close : QuotedTail ['"']
  | char {c : Char} {s : Text} : c ≠ '\\' → c ≠ '"' → QuotedTail s → QuotedTail (c :: s)
  | escape {c : Char} {s : Text} : isEscapable c = true → QuotedTail s →
      QuotedTail ('\\' :: c :: s)

inductive Quoted : Text → Prop
  | mk {s : Text} : QuotedTail s → Quoted ('"' :: s)

def Spaces (s : Text) : Prop := ∀ c ∈ s, isSpace c = true

mutual

inductive Term : Text → Prop
  | quoted {s : Text} : Quoted s → Term s
  | integer {s : Text} : Integer s → Term s
  | infimum : Term infimum
  | supremum : Term supremum
  | name {s : Text} : Name s → Term s
  | compound {s t : Text} {parts : List Text} : Name s → Arguments t parts → Term (s ++ t)
  | tuple {t : Text} {parts : List Text} : Arguments t parts → Term t

/-- A parenthesized list, with the texts of its terms. -/
inductive Arguments : Text → List Text → Prop
  | none : Arguments ['(', ')'] []
  | some {t : Text} {parts : List Text} : Items t parts → Arguments ('(' :: (t ++ [')'])) parts

/-- One term or more, separated by commas, with blanks around each. -/
inductive Items : Text → List Text → Prop
  | last {a t b : Text} : Spaces a → Term t → Spaces b → Items (a ++ t ++ b) [t]
  | cons {a t b u : Text} {parts : List Text} : Spaces a → Term t → Spaces b → Items u parts →
      Items (a ++ t ++ b ++ ',' :: u) (t :: parts)

end

/-- An atom with its name and the texts of its arguments. -/
inductive IsAtom : Text → Text → List Text → Prop
  | bare {s : Text} : Name s → IsAtom s s []
  | applied {s t : Text} {parts : List Text} : Name s → Arguments t parts →
      IsAtom (s ++ t) s parts

end Grammar
end Horizon
