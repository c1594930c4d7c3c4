import Scripting.Number.Digit

/-!
# Integer literals

An integer literal is a row of digits, perhaps with a minus sign in front. It stands for a number,
and it can be too long or too large to be taken as an integer.
-/

namespace Scripting

/-- The digits of an integer literal, without its sign. -/
def literalDigits (literal : String) : List Char :=
  match literal.toList with
  | '-' :: digits => digits
  | digits => digits

/-- The number that an integer literal stands for. -/
def literalValue (literal : String) : Int :=
  match literal.toList with
  | '-' :: digits => -(numberOfDigits digits : Int)
  | digits => numberOfDigits digits

/-- The largest number of digits, leading zeros included, that an integer literal may have. -/
def digitLimit : Nat := 4300

/-- The largest integer that a literal may stand for, 2^63 - 1. -/
def largestInteger : Int := 9223372036854775807

end Scripting
