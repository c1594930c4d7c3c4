import Scripting.Reading.Grammar
import Scripting.Token.Lexer

/-!
# Reading a program

A reading of a token list is the program tree with the errors that were recorded on the way. The
tree is meant to be run only when there are no errors. A literal that is too long ends the
reading for good: `tooLong?` gives the first one.
-/

namespace Scripting

/-- A program and the errors recorded while it was read. -/
structure Reading where
  program : Block
  errors : List SyntaxError

namespace Reading

/-- Reads a token list. What follows the first end token at which a statement could start is left
alone. -/
def ofTokens (tokens : List Token) : Reading :=
  let result := Grammar.program (Grammar.fuelFor tokens) tokens
  ⟨result.value, result.errors⟩

/-- Reads a text. -/
def ofText (text : String) : Reading :=
  ofTokens (tokenize text)

/-- The number of digits of the first literal that was refused for its length. -/
def tooLong? (reading : Reading) : Option Nat :=
  reading.errors.findSome? SyntaxError.tooLong?

/-- The printed form of the program that was read. -/
def render (reading : Reading) : String :=
  Block.render reading.program

end Reading

end Scripting
