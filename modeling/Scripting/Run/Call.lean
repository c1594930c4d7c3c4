import Scripting.Options
import Scripting.Run.State

/-!
# Calls, properties and objects

How arguments are bound, where a property comes from, and what happens when a value is called or
an object is made. Bodies are run by a function that is passed in (`RunBody`), so nothing here
recurses: the evaluator ties the knot, with a limit on how deep bodies nest.
-/

namespace Scripting

/-- Runs the body of a function in the scope made for the call. -/
abbrev RunBody := Block → Nat → Eval Value

/-- The bindings of a call. Arguments are bound by position; surplus arguments are dropped and a
parameter without an argument stays unbound. With a receiver `this` is bound to it, and a first
parameter called `self` takes it in place of an argument. -/
def callBindings (params : List String) (args : List Value) (receiver : Option Object) :
    Table Value :=
  match receiver, params with
  | none, params => Table.ofList (params.zip args)
  | some o, "self" :: rest =>
      Table.ofList (("this", .object o) :: ("self", .object o) :: rest.zip args)
  | some o, params => Table.ofList (("this", .object o) :: params.zip args)

/-- The bindings of a call whose method belongs to `owner`: `super` is its superclass, if it has
one. -/
def withSuper (table : Table Value) (owner : Class) : Table Value :=
  match owner.superclass? with
  | none => table
  | some parent => table.set "super" (.cls parent)

namespace Builtin

/-- Calls a built-in function. -/
def call (b : Builtin) (args : List Value) : Eval Value :=
  match b, args with
  | .print, args => do
      args.forM fun arg => Eval.printLine arg.inspect
      pure .null
  | .len, [.array _ elements] => pure (.integer elements.length)
  | .len, [.string s] => pure (.integer s.length)
  | .len, [arg] => Eval.fail (.lenNotSupported arg.type)
  | .len, args => Eval.fail (.wrongArgumentCount args.length 1)
  | .push, [.array _ elements, last] => Eval.newArray (elements ++ [last])
  | .push, [first, _] => Eval.fail (.pushNotArray first.type)
  | .push, args => Eval.fail (.wrongArgumentCount args.length 2)

end Builtin

variable (options : Options) (run : RunBody)

/-- What a name means: a built-in function, or else what the scope says. -/
def readName (scope : Nat) (name : String) : Eval Value :=
  match Builtin.ofName? name with
  | some b => pure (.builtin b)
  | none => do
      match ← Eval.lookup scope name with
      | some value => pure value
      | none => Eval.fail (.identifierNotFound name)

/-- A property of a value. An object's own properties come before its methods; a map answers with
null for a name it does not have; a class answers only where methods are looked up in ancestors
too, with a method bound to the current object if there is one. -/
def readProperty (scope : Nat) (target : Value) (name : String) : Eval Value :=
  match target with
  | .object o => do
      match ← Eval.ownProperty? o name with
      | some value => pure value
      | none =>
          match o.cls.findMethod? options.walksSuperclasses name with
          | some (method, owner) => return .boundMethod (← Eval.freshIdent) method o owner
          | none => Eval.fail (.propertyNotFound name)
  | .hash _ rows => pure (((Table.get? rows name).map Prod.snd).getD .null)
  | .cls c =>
      if options.walksSuperclasses then
        match c.findMethod? true name with
        | none => Eval.fail (.propertyNotFound name)
        | some (method, owner) => do
            match ← Eval.lookup scope "this" with
            | some (.object o) => return .boundMethod (← Eval.freshIdent) method o owner
            | _ => pure (.function method)
      else Eval.fail (.noProperties target.type)
  | _ => Eval.fail (.noProperties target.type)

/-- Calls a function. Where methods are looked up in ancestors too, `super` stands for the
superclass of the class that owns the function. A `return` of the body gives its value. -/
def callFunction (f : Closure) (args : List Value) (receiver : Option Object)
    (owner : Option Class) : Eval Value := do
  let table := callBindings f.params args receiver
  let table :=
    match owner with
    | some c => if options.walksSuperclasses then withSuper table c else table
    | none => table
  let scope ← Eval.enterScope f.scope table
  let result ← run f.body scope
  pure result.unwrapReturn

/-- Calls a value, with the object whose property it was read from. -/
def callValue (callee : Value) (args : List Value) (receiver : Option Object) : Eval Value :=
  match callee with
  | .boundMethod _ method o owner => callFunction options run method args (some o) (some owner)
  | .function f => callFunction options run f args receiver (receiver.map Object.cls)
  | .builtin b => b.call args
  | _ => Eval.fail (.notAFunction callee.type)

/-- Makes an object: it gets the methods of its own class as properties, and then its constructor
runs, whose result counts for nothing unless it is an error. -/
def makeObject (callee : Value) (args : List Value) : Eval Value :=
  match callee with
  | .cls c => do
      let o ← Eval.newObject c (c.own.methods.map fun row => (row.1, .function row.2))
      match c.findMethod? options.walksSuperclasses "constructor" with
      | none => pure (.object o)
      | some (method, owner) => do
          let scope ← Eval.enterScope method.scope
            (withSuper (callBindings method.params args (some o)) owner)
          let result ← run method.body scope
          if result.isError then pure result else pure (.object o)
  | _ => Eval.fail (.notAClass callee.type)

/-- The definitions that a class inherits from: those of the class under a name and its ancestors,
or the signal that looking it up gave. -/
def readAncestors (scope : Nat) (superclass : Option String) :
    Eval (Except Value (List ClassBody)) :=
  match superclass with
  | none => pure (.ok [])
  | some parent => do
      let value ← readName scope parent
      match value with
      | .cls c => pure (.ok (c.own :: c.ancestors))
      | _ =>
          if value.isSignal then pure (.error value)
          else pure (.error (.failed (.superclassNotClass value.type)))

/-- Makes the class of a definition in a scope. -/
def makeClass (scope : Nat) (name : String) (superclass : Option String)
    (methods : List (String × FunctionLiteral)) : Eval Value :=
  (readAncestors scope superclass).onGathered fun ancestors => do
    let closures ← methods.mapM fun row =>
      return (row.1, { ident := ← Eval.freshIdent, literal := row.2, scope := scope : Closure })
    let ident ← Eval.freshIdent
    pure (.cls ⟨⟨ident, name, Table.ofList closures⟩, ancestors⟩)

/-- Assigns to a name. -/
def assignTo (scope : Nat) (name : String) (value : Value) : Eval Value := do
  if ← Eval.assignName scope name value then
    pure value
  else if options.strictAssignment then
    Eval.fail (.identifierNotFound name)
  else
    Eval.bindName scope name value
    pure value

/-- Assigns to a property. -/
def assignProperty (target : Value) (name : String) (value : Value) : Eval Value :=
  match target with
  | .object o => do
      Eval.setOwnProperty o name value
      pure value
  | _ => Eval.fail (.assignToNonInstance target.type)

end Scripting
