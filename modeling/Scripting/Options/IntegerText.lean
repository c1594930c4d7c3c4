import Scripting.Number.Digit
import Scripting.Text.Blank

/-!
# Integers as settings spell them

A setting may spell an integer more freely than a program does: with white space around it, a
plus or a minus sign, zeros in front, underscores between the digits, and a point with zeros
behind. `bare?` takes all of this off, step by step, and `value` reads the minus sign and the
digits that are left. A text that spells an integer with too many digits is told apart from one
that spells none.
-/

namespace Scripting.IntegerText

/-- The largest number of characters, a minus sign included, that digits may take up. -/
def sizeLimit : Nat := 4300

/-- Why a text has no value. -/
inductive Fault where
  | noInteger
  | tooLong
  deriving DecidableEq, Repr

/-- A text without a plus sign in front; a minus sign cannot follow it. -/
def withoutPlus? : List Char → Option (List Char)
  | '+' :: '-' :: _ => none
  | '+' :: cs => some cs
  | cs => some cs

/-- What stands behind zeros and underscores, the last of which is `last`: a number from its minus
sign or first other digit on. If there is none, the number is `last` itself. -/
def behindZeros? (last : Char) : List Char → Option (List Char)
  | [] => some [last]
  | c :: cs =>
      if c = '0' ∨ c = '_' then behindZeros? c cs
      else if c = '.' then some (last :: c :: cs)
      else if c = '-' ∨ isDigit c then some (c :: cs)
      else none

/-- A text without the zeros, and the underscores among them, in front of its number. A minus sign
in front leaves all as it is. -/
def withoutZeros? : List Char → Option (List Char)
  | [] => none
  | c :: cs =>
      if c = '0' then behindZeros? c cs
      else if c = '-' ∨ isDigit c then some (c :: cs)
      else none

/-- A text without the point and the zeros at its end. Nothing else can follow a point. -/
def withoutPlaces? (cs : List Char) : Option (List Char) :=
  match cs.dropWhile (· != '.') with
  | [] => some cs
  | _ :: places =>
      if places ≠ [] ∧ places.all (· == '0') then some (cs.takeWhile (· != '.')) else none

/-- A text without its underscores, if each of them stands alone between two other characters. -/
def withoutUnderscores (cs : List Char) : List Char :=
  let doubled := (cs.zip cs.tail).any (· == ('_', '_'))
  if cs.head? = some '_' ∨ cs.getLast? = some '_' ∨ doubled then cs
  else cs.filter (· != '_')

/-- A text without all that may stand around and between its digits. -/
def bare? (cs : List Char) : Option (List Char) := do
  let cs ← withoutPlus? (Text.trim Text.isSpace cs)
  let cs ← withoutZeros? cs
  let cs ← withoutPlaces? cs
  return withoutUnderscores cs

/-- The value of digits, with a minus sign in front or without one. Zeros may stand between the sign
and the number. -/
def bareValue (cs : List Char) : Except Fault Int :=
  let (sign, digits) := match cs with
    | '-' :: digits => (1, digits)
    | digits => (0, digits)
  let count := (digits.takeWhile isDigit).length
  if sizeLimit < sign + count then .error .tooLong
  else if count = 0 ∨ count < digits.length then .error .noInteger
  else if sign = 1 then .ok (-(numberOfDigits digits : Int))
  else .ok (numberOfDigits digits)

/-- The integer that a text spells. -/
def value (s : String) : Except Fault Int :=
  match bare? s.toList with
  | none => .error .noInteger
  | some cs => bareValue cs

end Scripting.IntegerText
