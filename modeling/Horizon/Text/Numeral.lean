import Horizon.Text.Basic

/-!
Decimal numerals: writing them, and reading those that fit in an unsigned 32-bit or a
signed 64-bit word. A numeral that does not fit is refused with its cause, never
wrapped.
-/

namespace Horizon

/-- Why a text is no unsigned 32-bit numeral. -/
inductive NumeralError where
  | empty
  | invalidDigit
  | tooLarge
deriving DecidableEq, Repr

namespace NumeralError

def message : NumeralError → Text
  | .empty => "cannot parse integer from empty string".toList
  | .invalidDigit => "invalid digit found in string".toList
  | .tooLarge => "number too large to fit in target type".toList

end NumeralError

namespace Numeral

def write (n : Nat) : Text := Nat.toDigits 10 n

def writeInt : Int → Text
  | .ofNat n => write n
  | .negSucc n => '-' :: write (n + 1)

/-- Reads on from the value `n` of the digits before. The first character that is no
digit, or the first digit that leaves the range, decides the error. -/
def readFrom (n : Nat) : Text → Except NumeralError Nat
  | [] => .ok n
  | c :: r =>
      if c.isDigit then
        let m := 10 * n + (c.toNat - '0'.toNat)
        if m < UInt32.size then readFrom m r else .error .tooLarge
      else .error .invalidDigit

/-- Reads an unsigned 32-bit numeral: an optional plus sign and at least one digit. -/
def read32 : Text → Except NumeralError UInt32
  | [] => .error .empty
  | '+' :: [] => .error .invalidDigit
  | '+' :: c :: r => (readFrom 0 (c :: r)).map UInt32.ofNat
  | c :: r => (readFrom 0 (c :: r)).map UInt32.ofNat

/-- Signed 64-bit numbers lie below this limit and not below its negative. -/
def limit64 : Nat := 9223372036854775808

/-- The signed 64-bit number whose numeral, as long as it goes, starts the text. -/
def leading64? (s : Text) : Option Int :=
  match s with
  | '-' :: r =>
      let digits := r.takeWhile Char.isDigit
      let n := Nat.ofDigitChars 10 digits 0
      if digits.isEmpty || limit64 < n then none else some (-(n : Int))
  | r =>
      let digits := r.takeWhile Char.isDigit
      let n := Nat.ofDigitChars 10 digits 0
      if digits.isEmpty || limit64 ≤ n then none else some (n : Int)

end Numeral
end Horizon
