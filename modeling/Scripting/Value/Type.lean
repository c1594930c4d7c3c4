/-!
# Types of values

The types that a diagnostic names. A `return` and a runtime error on their way have types of their
own, though no script can hold them.
-/

namespace Scripting

/-- The types of values. -/
inductive TypeTag where
  | integer | string | boolean | null | array | hash | function | builtin | cls | object
  | boundMethod | returned | error
  deriving DecidableEq, Repr

/-- The name of a type. -/
def TypeTag.name : TypeTag → String
  | integer => "INTEGER"
  | string => "STRING"
  | boolean => "BOOLEAN"
  | null => "NULL"
  | array => "ARRAY"
  | hash => "HASH"
  | function => "FUNCTION"
  | builtin => "BUILTIN"
  | cls => "CLASS"
  | object => "INSTANCE"
  | boundMethod => "BOUND_METHOD"
  | returned => "RETURN_VALUE"
  | error => "ERROR"

end Scripting
