import Scripting.Run.Call
import Scripting.Proofs.Value.Rename

/-!
# The scope of a call

A call and the making of an object run a body in a scope of their own. Here the bindings of that
scope have names, so that what happens before and after the body can be told apart from the body.
-/

namespace Scripting

/-- The state with a new scope inside another, with bindings of its own. -/
def State.withScope (s : State) (outer : Nat) (table : Table Value) : State :=
  { s with scopes := s.scopes.addInside outer table }

/-- The state with a new object that has the methods of a class as properties. -/
def State.withObject (s : State) (c : Class) : State :=
  { s with properties := s.properties.push (c.own.methods.map fun row => (row.1, .function row.2)) }

theorem Eval.runOn_enterScope (outer : Nat) (table : Table Value) (s : State) :
    (enterScope outer table).runOn s = (some s.scopes.size, s.withScope outer table) := rfl

/-- The bindings of a call: with a class that owns the function `super` is bound too, where methods
are looked up in ancestors. -/
def callTable (options : Options) (f : Closure) (args : List Value) (receiver : Option Object)
    (owner : Option Class) : Table Value :=
  match owner with
  | none => callBindings f.params args receiver
  | some c =>
      if options.walksSuperclasses then withSuper (callBindings f.params args receiver) c
      else callBindings f.params args receiver

/-- The bindings under which a constructor runs. -/
def constructorTable (method : Closure) (args : List Value) (o : Object) (owner : Class) :
    Table Value :=
  withSuper (callBindings method.params args (some o)) owner

section

variable (options : Options) (run : RunBody)

theorem callFunction_eq (f : Closure) (args : List Value) (receiver : Option Object)
    (owner : Option Class) :
    callFunction options run f args receiver owner = (do
      let scope ← Eval.enterScope f.scope (callTable options f args receiver owner)
      let result ← run f.body scope
      pure result.unwrapReturn) := by
  cases owner <;> rfl

variable {options run}

/-- A call gives what its body gives, the value of a `return` in place of the `return`. -/
theorem runOn_callFunction {f : Closure} {args : List Value} {receiver : Option Object}
    {owner : Option Class} {s t : State} {v : Value}
    (h : (run f.body s.scopes.size).runOn
      (s.withScope f.scope (callTable options f args receiver owner)) = (some v, t)) :
    (callFunction options run f args receiver owner).runOn s = (some v.unwrapReturn, t) := by
  rw [callFunction_eq, Eval.runOn_bind_of_some (Eval.runOn_enterScope _ _ s)]
  exact Eval.runOn_bind_of_some h

/-- The making of an object whose class has a constructor gives the object, or the error of the
constructor. -/
theorem runOn_makeObject {c owner : Class} {method : Closure} {args : List Value} {s t : State}
    {v : Value}
    (hmethod : c.findMethod? options.walksSuperclasses "constructor" = some (method, owner))
    (h : (run method.body s.scopes.size).runOn ((s.withObject c).withScope method.scope
      (constructorTable method args ⟨s.properties.size, c⟩ owner)) = (some v, t)) :
    (makeObject options run (.cls c) args).runOn s =
      (some (if v.isError then v else .object ⟨s.properties.size, c⟩), t) := by
  have hobject :
      (Eval.newObject c (c.own.methods.map fun row => (row.1, .function row.2))).runOn s =
        (some ⟨s.properties.size, c⟩, s.withObject c) := rfl
  simp only [makeObject]
  rw [Eval.runOn_bind_of_some hobject, hmethod]
  dsimp only
  rw [Eval.runOn_bind_of_some (Eval.runOn_enterScope _ _ _)]
  refine (Eval.runOn_bind_of_some h).trans ?_
  cases v.isError <;> rfl

end

/-! ### Built-in functions with a wrong number of arguments -/

namespace Builtin

variable {args : List Value}

theorem call_len_of_length_ne (h : args.length ≠ 1) :
    len.call args = Eval.fail (.wrongArgumentCount args.length 1) := by
  unfold call
  split <;> first | rfl | exact absurd rfl h | contradiction

theorem call_push_of_length_ne (h : args.length ≠ 2) :
    push.call args = Eval.fail (.wrongArgumentCount args.length 2) := by
  unfold call
  split <;> first | rfl | exact absurd rfl h | contradiction

end Builtin

/-! ### Renaming the bindings of a call -/

section

variable (ρ : Renaming)

theorem zip_rename (params : List String) (args : List Value) :
    params.zip (args.map (Value.rename ρ)) =
      Table.mapContents (Value.rename ρ) (params.zip args) := by
  rw [List.zip_map_right]
  rfl

theorem callBindings_of_head_ne {params : List String} (h : params.head? ≠ some "self")
    (args : List Value) (o : Object) :
    callBindings params args (some o) =
      Table.ofList (("this", .object o) :: params.zip args) := by
  unfold callBindings
  split
  · next hnone => cases hnone
  · exact absurd rfl h
  · next ho _ =>
      cases ho
      rfl

theorem callBindings_rename (params : List String) (args : List Value)
    (receiver : Option Object) :
    callBindings params (args.map (Value.rename ρ)) (receiver.map (Object.rename ρ)) =
      (callBindings params args receiver).mapContents (Value.rename ρ) := by
  cases receiver with
  | none =>
      refine (congrArg Table.ofList (zip_rename ρ params args)).trans ?_
      exact Table.ofList_mapContents _ _
  | some o =>
      by_cases hself : params.head? = some "self"
      · obtain ⟨rest, rfl⟩ := List.head?_eq_some_iff.mp hself
        refine (congrArg (fun rows => Table.ofList (("this", .object (o.rename ρ)) ::
          ("self", .object (o.rename ρ)) :: rows)) (zip_rename ρ rest args)).trans ?_
        exact Table.ofList_mapContents (Value.rename ρ)
          (("this", .object o) :: ("self", .object o) :: rest.zip args)
      · rw [Option.map_some, callBindings_of_head_ne hself, callBindings_of_head_ne hself,
          zip_rename]
        exact Table.ofList_mapContents (Value.rename ρ) (("this", .object o) :: params.zip args)

theorem withSuper_rename (table : Table Value) (owner : Class) :
    withSuper (table.mapContents (Value.rename ρ)) (owner.rename ρ) =
      (withSuper table owner).mapContents (Value.rename ρ) := by
  unfold withSuper
  rw [Class.superclass?_rename]
  cases owner.superclass? with
  | none => rfl
  | some parent => exact Table.set_mapContents _ table "super" (.cls parent)

theorem callTable_rename (options : Options) (f : Closure) (args : List Value)
    (receiver : Option Object) (owner : Option Class) :
    callTable options (f.rename ρ) (args.map (Value.rename ρ)) (receiver.map (Object.rename ρ))
        (owner.map (Class.rename ρ)) =
      (callTable options f args receiver owner).mapContents (Value.rename ρ) := by
  have hparams : (f.rename ρ).params = f.params := rfl
  cases owner with
  | none => exact callBindings_rename ρ f.params args receiver
  | some c =>
      unfold callTable
      simp only [Option.map_some, hparams, callBindings_rename]
      split
      · exact withSuper_rename ρ _ c
      · rfl

theorem constructorTable_rename (method : Closure) (args : List Value) (o : Object)
    (owner : Class) :
    constructorTable (method.rename ρ) (args.map (Value.rename ρ)) (o.rename ρ)
        (owner.rename ρ) =
      (constructorTable method args o owner).mapContents (Value.rename ρ) := by
  have hbindings : callBindings (method.rename ρ).params (args.map (Value.rename ρ))
        (some (o.rename ρ)) =
      (callBindings method.params args (some o)).mapContents (Value.rename ρ) :=
    callBindings_rename ρ method.params args (some o)
  unfold constructorTable
  rw [hbindings]
  exact withSuper_rename ρ _ owner

end

end Scripting
