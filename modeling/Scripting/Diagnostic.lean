/-!
# Diagnostics

A diagnostic is a kind and a message, `kind: message`. On a colour terminal the kind is bold and
red.
-/

namespace Scripting

/-- The text of a diagnostic. -/
def diagnostic (color : Bool) (kind message : String) : String :=
  if color then "\x1b[1m\x1b[31m" ++ kind ++ ": \x1b[0m" ++ message
  else kind ++ ": " ++ message

/-- A plain diagnostic on a line of its own. -/
def diagnosticLine (kind message : String) : String :=
  diagnostic false kind message ++ "\n"

end Scripting
