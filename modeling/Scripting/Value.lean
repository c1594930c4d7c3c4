import Scripting.Table
import Scripting.Tree.Printed
import Scripting.Value.Error

/-!
# Runtime values

A value holds all that its printed form needs: a list its elements, a class its methods and those
of its ancestors. What a script can change, the bindings of a scope and the properties of an
object, is not part of a value; a function refers to its scope by number, and an object is an
identity with a class.

Lists, maps, functions, classes and bound methods carry an identity of their own, so that two
that look the same can still be told apart. Booleans, null and built-in functions need none: there
is one object for each of them. `same` compares values accordingly, and `inspect` is the printed
form.

Two kinds of value are signals: a `return` on its way to the call that it leaves, and a runtime
error on its way to the program. They are what evaluation may give in place of an ordinary value,
and whoever evaluates a part of a tree has to look whether it got one.
-/

namespace Scripting

/-- The functions that every script can call. -/
inductive Builtin where
  | print | len | push
  deriving DecidableEq, Repr

namespace Builtin

/-- The name of a built-in function. -/
def name : Builtin → String
  | print => "print"
  | len => "len"
  | push => "push"

/-- The built-in function of a name. -/
def ofName? : String → Option Builtin
  | "print" => some print
  | "len" => some len
  | "push" => some push
  | _ => none

theorem ofName?_eq_some_iff (n : String) (b : Builtin) : ofName? n = some b ↔ n = b.name := by
  constructor
  · intro h
    unfold ofName? at h
    split at h <;> cases h <;> rfl
  · rintro rfl
    cases b <;> rfl

end Builtin

/-- A function with the scope it was made in. -/
structure Closure where
  ident : Nat
  literal : FunctionLiteral
  scope : Nat

/-- The parameters of a function. -/
def Closure.params (f : Closure) : List String :=
  f.literal.params

/-- The body of a function. -/
def Closure.body (f : Closure) : Block :=
  f.literal.body

/-- A class by itself: its name and the methods of its own definition. -/
structure ClassBody where
  ident : Nat
  name : String
  methods : Table Closure

/-- A class: its own definition and those of its ancestors, nearest first. -/
structure Class where
  own : ClassBody
  ancestors : List ClassBody

namespace Class

/-- The name of a class. -/
def name (c : Class) : String :=
  c.own.name

/-- The superclass of a class. -/
def superclass? (c : Class) : Option Class :=
  match c.ancestors with
  | [] => none
  | parent :: rest => some ⟨parent, rest⟩

/-- The class with a given definition and its ancestors as classes, nearest first. -/
def lineageOf (own : ClassBody) : List ClassBody → List Class
  | [] => [⟨own, []⟩]
  | parent :: rest => ⟨own, parent :: rest⟩ :: lineageOf parent rest

/-- A class and its ancestors, nearest first. -/
def lineage (c : Class) : List Class :=
  lineageOf c.own c.ancestors

/-- A method and the class whose definition holds it, looked up in the class alone or, if `walk`
is set, in its ancestors too. -/
def findMethod? (c : Class) (walk : Bool) (name : String) : Option (Closure × Class) :=
  (if walk then c.lineage else [c]).findSome? fun k =>
    (k.own.methods.get? name).map fun method => (method, k)

theorem lineage_eq (c : Class) :
    c.lineage = c :: (match c.superclass? with | none => [] | some parent => parent.lineage) := by
  obtain ⟨own, ancestors⟩ := c
  cases ancestors <;> rfl

end Class

/-- An object: an identity and its class. -/
structure Object where
  ident : Nat
  cls : Class

/-- The values of a running script. -/
inductive Value where
  | integer (n : Int)
  | string (s : String)
  | boolean (b : Bool)
  | null
  | array (ident : Nat) (elements : List Value)
  /-- A map; the name of a row is the printed form of the key in it. -/
  | hash (ident : Nat) (rows : List (String × Value × Value))
  | function (f : Closure)
  | builtin (b : Builtin)
  | cls (c : Class)
  | object (o : Object)
  /-- A method that was looked up through an object, with the class that defines it. -/
  | boundMethod (ident : Nat) (method : Closure) (object : Object) (owner : Class)
  /-- A `return` with its value. -/
  | returned (value : Value)
  /-- A runtime error. -/
  | failed (error : RuntimeError)

namespace Value

instance : Inhabited Value := ⟨null⟩

/-- The type of a value. -/
def type : Value → TypeTag
  | integer _ => .integer
  | string _ => .string
  | boolean _ => .boolean
  | null => .null
  | array _ _ => .array
  | hash _ _ => .hash
  | function _ => .function
  | builtin _ => .builtin
  | cls _ => .cls
  | object _ => .object
  | boundMethod _ _ _ _ => .boundMethod
  | returned _ => .returned
  | failed _ => .error

/-- Whether a value is a signal. -/
def isSignal : Value → Bool
  | returned _ | failed _ => true
  | _ => false

/-- Whether a value is a runtime error. -/
def isError : Value → Bool
  | failed _ => true
  | _ => false

/-- The value of a `return`; any other value is left as it is. -/
def unwrapReturn : Value → Value
  | returned value => value
  | value => value

@[simp] theorem unwrapReturn_returned (v : Value) : (returned v).unwrapReturn = v := rfl

/-- Only a `return` is unwrapped. -/
theorem unwrapReturn_of_ne {v : Value} (h : ∀ w, v ≠ returned w) : v.unwrapReturn = v := by
  cases v with
  | returned w => exact absurd rfl (h w)
  | _ => rfl

/-- Whether a condition counts a value as true: all do but null and false. -/
def isTruthy : Value → Bool
  | null | boolean false => false
  | _ => true

/-- Whether two values are the same. Integers and strings are compared by contents. So are booleans,
null and built-in functions, of which there is one object each: `true` is made once and every true
value is that object, so to have the same contents is to be the same object. The rest are compared
by the identity that each got when it was made. A signal ends the evaluation that gave it and is
never compared with anything; it has a case by contents for the sake of a total relation. -/
def same : Value → Value → Bool
  | integer a, integer b => a == b
  | string a, string b => a == b
  | boolean a, boolean b => a == b
  | null, null => true
  | array a _, array b _ => a == b
  | hash a _, hash b _ => a == b
  | function f, function g => f.ident == g.ident
  | builtin a, builtin b => a == b
  | cls c, cls d => c.own.ident == d.own.ident
  | object o, object p => o.ident == p.ident
  | boundMethod a _ _ _, boundMethod b _ _ _ => a == b
  | returned a, returned b => same a b
  | failed e, failed f => e == f
  | _, _ => false

/-- The object that a value is. -/
def object? : Value → Option Object
  | object o => some o
  | _ => none

mutual

/-- The printed form of a value. -/
def inspect : Value → String
  | integer n => toString n
  | string s => s
  | boolean true => "true"
  | boolean false => "false"
  | null => "null"
  | array _ elements => "[" ++ commaSeparated (inspectAll elements) ++ "]"
  | hash _ rows => "\x7b" ++ commaSeparated (inspectRows rows) ++ "\x7d"
  | function f =>
      "func(" ++ commaSeparated f.params ++ ") \x7b\n" ++ Block.render f.body ++ "\n\x7d"
  | builtin _ => "builtin function"
  | cls c => "class " ++ c.name
  | object o => o.cls.name ++ " instance"
  | boundMethod _ _ _ _ => "bound method"
  | returned value => value.inspect
  | failed error => "ERROR: " ++ error.message

/-- The printed forms of values, in order. -/
def inspectAll : List Value → List String
  | [] => []
  | v :: rest => v.inspect :: inspectAll rest

/-- The printed forms of the rows of a map, in order. -/
def inspectRows : List (String × Value × Value) → List String
  | [] => []
  | (_, key, value) :: rest => (key.inspect ++ ":" ++ value.inspect) :: inspectRows rest

end

theorem inspectAll_eq_map (vs : List Value) : inspectAll vs = vs.map inspect := by
  induction vs with
  | nil => simp [inspectAll]
  | cons v vs ih => simp [inspectAll, ih]

theorem same_self : ∀ v : Value, v.same v = true
  | returned v => by rw [same]; exact same_self v
  | integer _ | string _ | boolean _ | null | array _ _ | hash _ _ | function _ | builtin _ | cls _
  | object _ | boundMethod _ _ _ _ | failed _ => by simp [same]

theorem same_comm : ∀ v w : Value, v.same w = w.same v
  | returned v, w => by
      cases w with
      | returned w =>
          rw [same, same]
          exact same_comm v w
      | _ => simp only [same]
  | integer _, w | string _, w | boolean _, w | null, w | array _ _, w | hash _ _, w
  | function _, w | builtin _, w | cls _, w | object _, w | boundMethod _ _ _ _, w
  | failed _, w => by cases w <;> simp [same, Bool.beq_comm]

end Value

end Scripting
