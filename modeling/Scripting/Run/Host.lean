import Scripting.Run.State

/-!
# Values from the host

The data that a program around the interpreter can hand in, and the value it becomes. Each list
becomes a value of its own, so the same data handed in twice gives two different lists.
-/

namespace Scripting

/-- Data handed in by the host. -/
inductive HostValue where
  | null
  | boolean (b : Bool)
  | integer (n : Int)
  | string (s : String)
  | array (elements : List HostValue)

namespace HostValue

mutual

/-- The value of handed-in data. -/
def toValue : HostValue → Eval Value
  | null => pure .null
  | boolean b => pure (.boolean b)
  | integer n => pure (.integer n)
  | string s => pure (.string s)
  | array elements => do
      let values ← toValues elements
      Eval.newArray values

/-- The values of handed-in data, in order. -/
def toValues : List HostValue → Eval (List Value)
  | [] => pure []
  | first :: rest => do
      let value ← first.toValue
      let values ← toValues rest
      pure (value :: values)

end

end HostValue

end Scripting
