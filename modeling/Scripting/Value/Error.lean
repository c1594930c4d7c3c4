import Scripting.Value.Type

/-!
# Runtime errors

What can go wrong while a script runs, and the wording of each in a diagnostic.
-/

namespace Scripting

/-- The ways in which a script fails. -/
inductive RuntimeError where
  /-- A part of the tree that could not be read was evaluated. -/
  | missingNode
  | identifierNotFound (name : String)
  | thisNotFound
  | superNotFound
  /-- Something other than a name or a property, as printed, is assigned to. -/
  | invalidTarget (printed : String)
  | assignToNonInstance (type : TypeTag)
  | unknownUnary (op : String) (operand : TypeTag)
  | unknownBinary (left : TypeTag) (op : String) (right : TypeTag)
  | typeMismatch (left : TypeTag) (op : String) (right : TypeTag)
  | divisionByZero
  | notIndexable (type : TypeTag)
  | superclassNotClass (type : TypeTag)
  | notAClass (type : TypeTag)
  | propertyNotFound (name : String)
  | noProperties (type : TypeTag)
  | notAFunction (type : TypeTag)
  | wrongArgumentCount (got want : Nat)
  | lenNotSupported (type : TypeTag)
  | pushNotArray (type : TypeTag)
  deriving DecidableEq, Repr

/-- The wording of an error. -/
def RuntimeError.message : RuntimeError → String
  | missingNode => "unknown node type: NoneType"
  | identifierNotFound name => "identifier not found: " ++ name
  | thisNotFound => "'this' not found in current context"
  | superNotFound => "'super' not found in current context"
  | invalidTarget printed => "invalid left-hand side of assignment: " ++ printed
  | assignToNonInstance type => "cannot assign to property of non-instance: " ++ type.name
  | unknownUnary op operand => "unknown operator: " ++ op ++ operand.name
  | unknownBinary left op right =>
      "unknown operator: " ++ left.name ++ " " ++ op ++ " " ++ right.name
  | typeMismatch left op right => "type mismatch: " ++ left.name ++ " " ++ op ++ " " ++ right.name
  | divisionByZero => "division by zero"
  | notIndexable type => "index operator not supported: " ++ type.name
  | superclassNotClass type => "superclass must be a class, got " ++ type.name
  | notAClass type => "not a class: " ++ type.name
  | propertyNotFound name => "property " ++ name ++ " not found"
  | noProperties type => "property access not supported on " ++ type.name
  | notAFunction type => "not a function: " ++ type.name
  | wrongArgumentCount got want =>
      "wrong number of arguments. got=" ++ toString got ++ ", want=" ++ toString want
  | lenNotSupported type => "argument to `len` not supported, got " ++ type.name
  | pushNotArray type => "argument to `push` must be ARRAY, got " ++ type.name

end Scripting
