import Scripting.Proofs.Run.FirstSignal
import Scripting.Proofs.Run.LastStep

/-!
# The bodies that nodes run

Of all that a node does once its parts have given their values, only the call of a function and the
making of an object whose class has a constructor run a body. `Part.activation?` is that body, with
the scope and the state it runs in. A node that has none ends by itself, whatever bodies do; a node
that has one makes its value out of what the body gives.
-/

namespace Scripting

/-- A body with the scope and the state it runs in. -/
structure Activation where
  body : Block
  scope : Nat
  state : State

/-- What the body gives and the state it leaves. -/
def Activation.result (run : RunBody) (a : Activation) : Option Value × State :=
  (run a.body a.scope).runOn a.state

/-- The body of a function in a new scope with the given bindings. -/
def Closure.activation (f : Closure) (table : Table Value) (s : State) : Activation :=
  ⟨f.body, s.scopes.size, s.withScope f.scope table⟩

/-- The body that a call runs. -/
def calledBody? (options : Options) (callee : Value) (args : List Value)
    (receiver : Option Object) (s : State) : Option Activation :=
  match callee with
  | .boundMethod _ method o owner =>
      some (method.activation (callTable options method args (some o) (some owner)) s)
  | .function f =>
      some (f.activation (callTable options f args receiver (receiver.map Object.cls)) s)
  | _ => none

/-- The body that the making of an object runs. -/
def constructorBody? (options : Options) (callee : Value) (args : List Value) (s : State) :
    Option Activation :=
  match callee with
  | .cls c =>
      (c.findMethod? options.walksSuperclasses "constructor").map fun found =>
        found.1.activation (constructorTable found.1 args ⟨s.properties.size, c⟩ found.2)
          (s.withObject c)
  | _ => none

/-- The body that a node runs once its parts gave the values `vs` and left a state. -/
def Part.activation? (options : Options) : Part → List Value → State → Option Activation
  | expr (.new _ _), callee :: args, s => constructorBody? options callee args s
  | expr (.call (.property _ _) _), target :: function :: args, s =>
      calledBody? options function args target.object? s
  | expr (.call _ _), function :: args, s => calledBody? options function args none s
  | _, _, _ => none

/-! ### Computations that always have a result -/

namespace Eval

variable {α β γ : Type}

/-- The computation has a result in every state. -/
def Answers (x : Eval α) : Prop :=
  ∀ s, ∃ a t, x.runOn s = (some a, t)

/-- The computation has a result that does not depend on what runs the bodies. -/
def Steady (x : RunBody → Eval Value) (s : State) : Prop :=
  ∃ v t, ∀ run, (x run).runOn s = (some v, t)

theorem Answers.steady {x : Eval Value} (h : x.Answers) (s : State) : Steady (fun _ => x) s := by
  obtain ⟨v, t, hx⟩ := h s
  exact ⟨v, t, fun _ => hx⟩

theorem Answers.pure (a : α) : (Pure.pure a : Eval α).Answers :=
  fun s => ⟨a, s, rfl⟩

theorem Answers.act (f : State → α × State) : (Eval.act f).Answers :=
  fun s => ⟨(f s).1, (f s).2, rfl⟩

theorem Answers.bind {x : Eval α} {f : α → Eval β} (hx : x.Answers) (hf : ∀ a, (f a).Answers) :
    (x >>= f).Answers := by
  intro s
  obtain ⟨a, t, h⟩ := hx s
  rw [runOn_bind_of_some h]
  exact hf a t

theorem Answers.mapM {f : γ → Eval α} (hf : ∀ c, (f c).Answers) (cs : List γ) :
    (cs.mapM f).Answers := by
  induction cs with
  | nil => exact .pure []
  | cons c cs ih =>
      rw [List.mapM_cons]
      exact (hf c).bind fun a => ih.bind fun as => .pure (a :: as)

theorem Answers.forM {f : γ → Eval Unit} (hf : ∀ c, (f c).Answers) (cs : List γ) :
    (cs.forM f).Answers := by
  induction cs with
  | nil => exact .pure ()
  | cons c cs ih => exact (hf c).bind fun _ => ih

/-- What is made of a result is missing where the result is. -/
theorem runOn_bind_pure (x : Eval α) (f : α → β) (s : State) :
    (x >>= fun a => Pure.pure (f a)).runOn s = ((x.runOn s).1.map f, (x.runOn s).2) := by
  rw [runOn_bind]
  cases x.runOn s with
  | mk r t => cases r <;> rfl

theorem answers_lookupOrFail (scope : Nat) (name : String) (error : RuntimeError) :
    (lookupOrFail scope name error).Answers := by
  refine (Answers.act _).bind fun found => ?_
  cases found <;> exact .pure _

end Eval

open Eval

theorem answers_readName (scope : Nat) (name : String) : (readName scope name).Answers := by
  rw [readName_eq]
  cases Builtin.ofName? name with
  | some b => exact .pure _
  | none => exact answers_lookupOrFail _ _ _

theorem answers_readProperty (options : Options) (scope : Nat) (target : Value) (name : String) :
    (readProperty options scope target name).Answers := by
  cases target with
  | object o =>
      refine (Answers.act _).bind fun own => ?_
      cases own with
      | some value => exact .pure value
      | none =>
          cases o.cls.findMethod? options.walksSuperclasses name with
          | none => exact .pure _
          | some found => exact (Answers.act _).bind fun _ => .pure _
  | hash ident rows => exact .pure _
  | cls c =>
      simp only [readProperty]
      split
      · cases c.findMethod? true name with
        | none => exact .pure _
        | some found =>
            refine (Answers.act _).bind fun this => ?_
            split
            · exact (Answers.act _).bind fun _ => .pure _
            · exact .pure _
      · exact .pure _
  | _ => exact .pure _

theorem answers_assignTo (options : Options) (scope : Nat) (name : String) (value : Value) :
    (assignTo options scope name value).Answers := by
  refine (Answers.act _).bind fun found => ?_
  split
  · exact .pure value
  · split
    · exact .pure _
    · exact (Answers.act _).bind fun _ => .pure value

theorem answers_assignProperty (target : Value) (name : String) (value : Value) :
    (assignProperty target name value).Answers := by
  cases target with
  | object o => exact (Answers.act _).bind fun _ => .pure value
  | _ => exact .pure _

theorem answers_builtin (b : Builtin) (args : List Value) : (b.call args).Answers := by
  unfold Builtin.call
  split
  · exact (Answers.forM (fun _ => .act _) args).bind fun _ => .pure _
  · exact .pure _
  · exact .pure _
  · exact .pure _
  · exact .pure _
  · exact (Answers.act _).bind fun _ => .pure _
  · exact .pure _
  · exact .pure _

namespace Part

theorem answers_bindClass (scope : Nat) (name : String)
    (methods : List (String × FunctionLiteral)) (ancestors : List ClassBody) :
    (bindClass scope name methods ancestors).Answers := by
  refine (Answers.mapM (fun _ => (Answers.act _).bind fun _ => .pure _) methods).bind fun _ => ?_
  exact (Answers.act _).bind fun _ => (Answers.act _).bind fun _ => .pure _

theorem answers_finishClass (scope : Nat) (name : String)
    (methods : List (String × FunctionLiteral)) (vs : List Value) :
    (finishClass scope name methods vs).Answers := by
  unfold finishClass
  split
  · exact answers_bindClass _ _ _ _
  · exact answers_bindClass _ _ _ _
  · exact .pure _

theorem answers_finishAssign (options : Options) (scope : Nat) (target : Expr)
    (vs : List Value) : (finishAssign options scope target vs).Answers := by
  unfold finishAssign
  split
  · exact answers_assignTo _ _ _ _
  · exact answers_assignProperty _ _ _
  · exact .pure _

end Part

/-! ### What a call and the making of an object do -/

section

variable {options : Options} {callee : Value} {args : List Value} {receiver : Option Object}
  {s : State} {a : Activation}

theorem runOn_callFunction_eq (run : RunBody) (f : Closure) (args : List Value)
    (receiver : Option Object) (owner : Option Class) (s : State) :
    (callFunction options run f args receiver owner).runOn s =
      (((f.activation (callTable options f args receiver owner) s).result run).1.map
          Value.unwrapReturn,
        ((f.activation (callTable options f args receiver owner) s).result run).2) := by
  rw [callFunction_eq, runOn_bind_of_some (runOn_enterScope _ _ s)]
  exact runOn_bind_pure _ _ _

theorem runOn_callValue_of_body (h : calledBody? options callee args receiver s = some a)
    (run : RunBody) :
    (callValue options run callee args receiver).runOn s =
      ((a.result run).1.map Value.unwrapReturn, (a.result run).2) := by
  cases callee with
  | function f =>
      cases h
      exact runOn_callFunction_eq run f args receiver _ s
  | boundMethod ident method o owner =>
      cases h
      exact runOn_callFunction_eq run method args (some o) (some owner) s
  | _ => cases h

theorem runOn_callValue_of_no_body (h : calledBody? options callee args receiver s = none) :
    Steady (fun run => callValue options run callee args receiver) s := by
  cases callee with
  | function f => cases h
  | boundMethod ident method o owner => cases h
  | builtin b => exact (answers_builtin b args).steady s
  | _ => exact ⟨_, _, fun _ => rfl⟩

theorem runOn_makeObject_of_body (h : constructorBody? options callee args s = some a) :
    ∃ conclude : Value → Value, ∀ run, (makeObject options run callee args).runOn s =
      ((a.result run).1.map conclude, (a.result run).2) := by
  cases callee with
  | cls c =>
      obtain ⟨⟨method, owner⟩, hmethod, rfl⟩ := Option.map_eq_some_iff.mp h
      have hobject :
          (newObject c (c.own.methods.map fun row => (row.1, .function row.2))).runOn s =
            (some ⟨s.properties.size, c⟩, s.withObject c) := rfl
      have hconclude (o : Object) :
          (fun v : Value =>
              if v.isError then (Pure.pure v : Eval Value) else Pure.pure (.object o)) =
            fun v => Pure.pure (if v.isError then v else .object o) := by
        funext v
        split <;> rfl
      refine ⟨fun v => if v.isError then v else .object ⟨s.properties.size, c⟩, fun run => ?_⟩
      simp only [makeObject]
      rw [runOn_bind_of_some hobject, hmethod]
      dsimp only
      rw [runOn_bind_of_some (runOn_enterScope _ _ _), hconclude]
      exact runOn_bind_pure _ _ _
  | _ => cases h

theorem runOn_makeObject_of_no_body (h : constructorBody? options callee args s = none) :
    Steady (fun run => makeObject options run callee args) s := by
  cases callee with
  | cls c =>
      have hmethod := Option.map_eq_none_iff.mp h
      refine ⟨.object ⟨s.properties.size, c⟩, s.withObject c, fun run => ?_⟩
      simp only [makeObject, hmethod]
      rfl
  | _ => exact ⟨_, _, fun _ => rfl⟩

end

/-! ### The last step of a node -/

namespace Part

variable {options : Options} {scope : Nat} {node : Part} {vs : List Value} {s : State}

/-- A node with a body to run makes its value out of what the body gives. -/
theorem runOn_finish_of_activation {a : Activation} (h : node.activation? options vs s = some a) :
    ∃ conclude : Value → Value, ∀ run, (node.finish options run scope vs).runOn s =
      ((a.result run).1.map conclude, (a.result run).2) := by
  unfold activation? at h
  split at h
  · exact runOn_makeObject_of_body h
  · exact ⟨_, runOn_callValue_of_body h⟩
  · next callee args function rest hcallee =>
      have hfinish (run : RunBody) :
          (expr (.call callee args)).finish options run scope (function :: rest) =
            callValue options run function rest none := by
        cases callee with
        | property object name =>
            cases rest with
            | nil => rfl
            | cons v rest => exact (hcallee object name v rest rfl rfl).elim
        | _ => rfl
      simp only [hfinish]
      exact ⟨_, runOn_callValue_of_body h⟩
  · cases h

theorem runOn_finish_stmt {st : Stmt} (hlength : vs.length = ((stmt st).parts vs).length) :
    Steady (fun run => (stmt st).finish options run scope vs) s := by
  cases st with
  | letIn name value =>
      obtain ⟨v, rfl⟩ := List.length_eq_one_iff.mp hlength
      exact ⟨_, _, fun _ => rfl⟩
  | ret value => exact ⟨_, _, fun _ => rfl⟩
  | expr value =>
      obtain ⟨v, rfl⟩ := List.length_eq_one_iff.mp hlength
      exact ⟨_, _, fun _ => rfl⟩
  | classDef name superclass methods =>
      exact (answers_finishClass scope name methods vs).steady s

theorem runOn_finish_call {callee : Expr} {args : List Expr}
    (hlength : vs.length = ((expr (.call callee args)).parts vs).length)
    (h : (expr (.call callee args)).activation? options vs s = none) :
    Steady (fun run => (expr (.call callee args)).finish options run scope vs) s := by
  cases vs with
  | nil => cases callee <;> cases hlength
  | cons first vs =>
      cases callee with
      | property object name =>
          cases vs with
          | nil => cases hlength
          | cons function vs => exact runOn_callValue_of_no_body h
      | _ => exact runOn_callValue_of_no_body h

theorem runOn_finish_cond {condition : Expr} {consequence : Block} {alternative : Option Block}
    (hlength : vs.length =
      ((expr (.cond condition consequence alternative)).parts vs).length) :
    Steady (fun run =>
      (expr (.cond condition consequence alternative)).finish options run scope vs) s := by
  match vs, hlength with
  | [], hlength => cases hlength
  | [_], _ => exact ⟨_, _, fun _ => rfl⟩
  | [_, _], _ => exact ⟨_, _, fun _ => rfl⟩
  | v :: w :: u :: rest, hlength =>
      rw [parts] at hlength
      split at hlength
      · cases hlength
      · cases alternative <;> cases hlength

theorem runOn_finish_expr {e : Expr} (hlength : vs.length = ((expr e).parts vs).length)
    (h : (expr e).activation? options vs s = none) :
    Steady (fun run => (expr e).finish options run scope vs) s := by
  cases e with
  | ident name => exact (answers_readName scope name).steady s
  | this => exact (answers_lookupOrFail scope "this" .thisNotFound).steady s
  | super => exact (answers_lookupOrFail scope "super" .superNotFound).steady s
  | index target position =>
      obtain ⟨v, w, rfl⟩ := List.length_eq_two.mp hlength
      exact ⟨_, _, fun _ => rfl⟩
  | property object name =>
      obtain ⟨v, rfl⟩ := List.length_eq_one_iff.mp hlength
      exact (answers_readProperty options scope v name).steady s
  | assign target value => exact (answers_finishAssign options scope target vs).steady s
  | new className args =>
      cases vs with
      | nil => cases hlength
      | cons callee vs => exact runOn_makeObject_of_no_body h
  | unary op operand =>
      obtain ⟨v, rfl⟩ := List.length_eq_one_iff.mp hlength
      exact ⟨_, _, fun _ => rfl⟩
  | binary left op right =>
      obtain ⟨v, w, rfl⟩ := List.length_eq_two.mp hlength
      exact ⟨_, _, fun _ => rfl⟩
  | cond condition consequence alternative => exact runOn_finish_cond hlength
  | call callee args => exact runOn_finish_call hlength h
  | _ => exact ⟨_, _, fun _ => rfl⟩

/-- A node without a body to run ends with the same value, whatever bodies do. -/
theorem runOn_finish_of_no_activation (hlength : vs.length = (node.parts vs).length)
    (h : node.activation? options vs s = none) :
    Steady (fun run => node.finish options run scope vs) s := by
  cases node with
  | meaning name => exact (answers_readName scope name).steady s
  | property target name => exact (answers_readProperty options scope target name).steady s
  | block b => exact ⟨_, _, fun _ => rfl⟩
  | stmt st => exact runOn_finish_stmt hlength
  | expr e => exact runOn_finish_expr hlength h

end Part

end Scripting
