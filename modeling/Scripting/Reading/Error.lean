import Scripting.Token
import Scripting.Reading.Literal

/-!
# Syntax errors

What can be wrong with a program text, and the wording of each in a diagnostic. Reading records
errors and goes on. One error alone ends it for good: an integer literal with more digits than
the digit limit is refused before its value is looked at.
-/

namespace Scripting

/-- The faults that reading records. -/
inductive SyntaxError where
  /-- Another kind of token had to come next. -/
  | expected (wanted found : TokenKind)
  /-- No expression starts with a token of this kind. -/
  | noOperand (found : TokenKind)
  /-- An integer above the largest 64-bit integer. -/
  | integerTooLarge (literal : String)
  /-- Something other than a name or a property stands left of `=`. -/
  | invalidTarget (printed : String)
  /-- An integer literal with more digits than `digitLimit`. -/
  | literalTooLong (digits : Nat)
  deriving DecidableEq, Repr

namespace SyntaxError

/-- The wording of an error. -/
def message : SyntaxError → String
  | expected wanted found =>
      "expected next token to be " ++ wanted.display ++ ", got " ++ found.display ++ " instead"
  | noOperand found => "no prefix parse function for " ++ found.display ++ " found"
  | integerTooLarge literal => "could not parse \"" ++ literal ++ "\" as integer"
  | invalidTarget printed => "invalid assignment target: " ++ printed
  | literalTooLong digits =>
      "Exceeds the limit (" ++ toString digitLimit ++
        " digits) for integer string conversion: value has " ++ toString digits ++
        " digits; use sys.set_int_max_str_digits() to increase the limit"

/-- The number of digits of a literal that was refused for its length. -/
def tooLong? : SyntaxError → Option Nat
  | literalTooLong digits => some digits
  | _ => none

end SyntaxError

end Scripting
