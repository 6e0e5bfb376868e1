/-!
# Decimal numerals

A numeral is an optional sign and at least one decimal digit, and stands for a signed 64-bit
number. It is read from the left, and the first character that spoils it names the fault.
-/

set_option autoImplicit false

namespace ForthMachine.Text.Numeral

inductive Fault where
  | empty
  | invalidDigit
  | tooLarge
  | tooSmall
  deriving DecidableEq, Repr

def Fault.message : Fault → String
  | .empty => "cannot parse integer from empty string"
  | .invalidDigit => "invalid digit found in string"
  | .tooLarge => "number too large to fit in target type"
  | .tooSmall => "number too small to fit in target type"

def digit? (c : Char) : Option Nat :=
  if c.isDigit then some (c.toNat - '0'.toNat) else none

def least : Int := Int64.minValue.toInt

def greatest : Int := Int64.maxValue.toInt

/-- The number whose decimal digits are those of `n` and then `digits`, all counted away from
zero on the side that `negative` tells. -/
def extend (negative : Bool) (n : Int) : List Char → Except Fault Int64
  | [] => .ok (Int64.ofInt n)
  | c :: digits =>
    match digit? c with
    | none => .error .invalidDigit
    | some d =>
      let next := if negative then 10 * n - d else 10 * n + d
      if next < least then .error .tooSmall
      else if greatest < next then .error .tooLarge
      else extend negative next digits

def parseChars : List Char → Except Fault Int64
  | [] => .error .empty
  | ['+'] => .error .invalidDigit
  | ['-'] => .error .invalidDigit
  | '+' :: digits => extend false 0 digits
  | '-' :: digits => extend true 0 digits
  | digits => extend false 0 digits

def parse (text : String) : Except Fault Int64 :=
  parseChars text.toList

/-- The shortest numeral of a number: a minus sign where there is need of one, no zeros in front. -/
def write (n : Int64) : String :=
  n.toInt.repr

end ForthMachine.Text.Numeral
