/-
  Decimal numerals: an optional sign, then digits, with a greatest value. Reading goes from the
  left, and the first character that cannot be taken decides the failure.
-/

namespace HackVM.Text

/-- The reasons why a text is no numeral in range. -/
inductive NumeralError where
  | empty
  | invalidDigit
  | tooLarge
deriving DecidableEq

/-- The text of the error. -/
def NumeralError.message : NumeralError → String
  | .empty => "cannot parse integer from empty string"
  | .invalidDigit => "invalid digit found in string"
  | .tooLarge => "number too large to fit in target type"

/-- `c` is an ASCII digit. -/
def isDigit (c : Char) : Bool := '0' ≤ c && c ≤ '9'

/-- The value of an ASCII digit. -/
def digitValue (c : Char) : Nat := c.toNat - '0'.toNat

/-- The number that digits denote behind the prefix of value `value`, at most `greatest`. -/
def readDigits (greatest : Nat) : Nat → List Char → Except NumeralError Nat
  | value, [] => .ok value
  | value, c :: rest =>
    if isDigit c then
      let next := 10 * value + digitValue c
      if next ≤ greatest then readDigits greatest next rest else .error .tooLarge
    else .error .invalidDigit

/-- Digits with an optional `+`, at most `greatest`. -/
def readNat (greatest : Nat) : List Char → Except NumeralError Nat
  | [] => .error .empty
  | ['+'] => .error .invalidDigit
  | '+' :: digits => readDigits greatest 0 digits
  | digits => readDigits greatest 0 digits

/-- Digits with an optional sign, in `[-greatest - 1, greatest]`. -/
def readInt (greatest : Nat) : List Char → Except NumeralError Int
  | ['-'] => .error .invalidDigit
  | '-' :: digits => (readDigits (greatest + 1) 0 digits).map fun n => -(n : Int)
  | text => (readNat greatest text).map fun n => (n : Int)

end HackVM.Text
