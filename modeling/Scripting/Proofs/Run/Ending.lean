import Scripting.Proofs.Run.Activation

/-!
# How a node ends

`Ending` lists the last steps of nodes once more, with what each of them has from the node itself:
the integer of a literal, the names that it binds, the functions that it makes and the body that it
runs. The last step of every node is one of them (`Part.ending_finish`). Where the node does not
matter, `Part.lastStep_finish` is enough.
-/

namespace Scripting

/-- The steps by which a node whose parts gave the values `vs` may end, with what they have from the
node. -/
inductive Ending (options : Options) (run : RunBody) (scope : Nat) (node : Part)
    (vs : List Value) : Eval Value → Prop where
  | literal (n : Int) {digits : String} (hnode : node = .expr (.int n digits)) :
      Ending options run scope node vs (pure (.integer n))
  | bare {v : Value} (hv : v.IsBare) (hne : ∀ n, v ≠ .integer n) :
      Ending options run scope node vs (pure v)
  | given {v : Value} (hv : v ∈ vs) : Ending options run scope node vs (pure v)
  | returned {v : Value} (hv : v = .null ∨ v ∈ vs) :
      Ending options run scope node vs (pure (.returned v))
  | builtin (b : Builtin) : Ending options run scope node vs (pure (.builtin b))
  | index {target position : Value} (htarget : target ∈ vs) (hposition : position ∈ vs) :
      Ending options run scope node vs (pure (target.index position))
  | unary {op : String} {operand : Value} (h : operand ∈ vs) :
      Ending options run scope node vs (pure (Value.unary op operand))
  | binary {left right : Value} {op : String} (hleft : left ∈ vs) (hright : right ∈ vs) :
      Ending options run scope node vs (pure (left.binary op right))
  | fail {error : RuntimeError} (h : error.IsBare) :
      Ending options run scope node vs (Eval.fail error)
  | noClass {v : Value} (hv : v ∈ vs) :
      Ending options run scope node vs (Eval.fail (.superclassNotClass v.type))
  | array : Ending options run scope node vs (Eval.newArray vs)
  | hash : Ending options run scope node vs (Eval.newHash (Part.inPairs vs))
  | function {literal : FunctionLiteral} (hnode : node = .expr (.function literal)) :
      Ending options run scope node vs (return .function ⟨← Eval.freshIdent, literal, scope⟩)
  | lookup (name : String) {error : RuntimeError} (h : error.IsBare) :
      Ending options run scope node vs (Eval.lookupOrFail scope name error)
  | property {target : Value} (name : String)
      (h : target ∈ vs ∨ node = .property target name) :
      Ending options run scope node vs (readProperty options scope target name)
  | assignName {name : String} {value : Expr} {v : Value}
      (hnode : node = .expr (.assign (.ident name) value)) (hv : v ∈ vs) :
      Ending options run scope node vs (assignTo options scope name v)
  | assignProperty {object value : Expr} {name : String} {v target : Value}
      (hnode : node = .expr (.assign (.property object name) value)) (hvs : vs = [v, target]) :
      Ending options run scope node vs (assignProperty target name v)
  | new {callee : Value} {args : List Value} (hvs : vs = callee :: args)
      (hbody : ∀ s, node.activation? options vs s = constructorBody? options callee args s) :
      Ending options run scope node vs (makeObject options run callee args)
  | call {function : Value} {args : List Value} {receiver : Option Object}
      (hfunction : function ∈ vs) (hargs : args ⊆ vs)
      (hreceiver : ∀ o ∈ receiver, Value.object o ∈ vs)
      (hbody : ∀ s, node.activation? options vs s = calledBody? options function args receiver s) :
      Ending options run scope node vs (callValue options run function args receiver)
  | bind {name : String} {value : Expr} {v : Value} (hnode : node = .stmt (.letIn name value))
      (hv : v ∈ vs) :
      Ending options run scope node vs (do
        Eval.bindName scope name v
        pure .null)
  | bindClass {name : String} {superclass : Option String}
      {methods : List (String × FunctionLiteral)} {ancestors : List ClassBody}
      (hnode : node = .stmt (.classDef name superclass methods))
      (hancestors : ancestors = [] ∨ ∃ c : Class, Value.cls c ∈ vs ∧
        ancestors = c.own :: c.ancestors) :
      Ending options run scope node vs (Part.bindClass scope name methods ancestors)

namespace Part

variable {options : Options} {run : RunBody} {scope : Nat} {vs : List Value}

theorem ending_readName (node : Part) (name : String) :
    Ending options run scope node vs (readName scope name) := by
  rw [readName_eq]
  cases Builtin.ofName? name with
  | some b => exact .builtin b
  | none => exact .lookup name trivial

theorem ending_last {node : Part} :
    Ending options run scope node vs (pure (vs.getLast?.getD .null)) := by
  cases h : vs.getLast? with
  | none => exact .bare trivial nofun
  | some v => exact .given (List.mem_of_getLast? h)

theorem ending_finishAssign (target value : Expr) :
    Ending options run scope (expr (.assign target value)) vs
      (finishAssign options scope target vs) := by
  cases target with
  | ident name =>
      match vs with
      | [v] => exact .assignName rfl List.mem_cons_self
      | [] | _ :: _ :: _ => exact .fail trivial
  | property object name =>
      match vs with
      | [v, o] => exact .assignProperty rfl rfl
      | [] | [_] | _ :: _ :: _ :: _ => exact .fail trivial
  | _ => exact .fail trivial

theorem ending_finishClass (name : String) (superclass : Option String)
    (methods : List (String × FunctionLiteral)) :
    Ending options run scope (stmt (.classDef name superclass methods)) vs
      (finishClass scope name methods vs) := by
  cases vs with
  | nil => exact .bindClass rfl (.inl rfl)
  | cons v vs =>
      cases v with
      | cls c => exact .bindClass rfl (.inr ⟨c, List.mem_cons_self, rfl⟩)
      | _ => exact .noClass List.mem_cons_self

theorem ending_finish_stmt {s : Stmt} (hlength : vs.length = ((stmt s).parts vs).length) :
    Ending options run scope (stmt s) vs ((stmt s).finish options run scope vs) := by
  cases s with
  | letIn name value =>
      obtain ⟨v, rfl⟩ := List.length_eq_one_iff.mp hlength
      exact .bind rfl List.mem_cons_self
  | ret value =>
      cases h : vs.getLast? with
      | none =>
          rw [finish, h]
          exact .returned (.inl rfl)
      | some v =>
          rw [finish, h]
          exact .returned (.inr (List.mem_of_getLast? h))
  | expr value =>
      obtain ⟨v, rfl⟩ := List.length_eq_one_iff.mp hlength
      exact .given List.mem_cons_self
  | classDef name superclass methods => exact ending_finishClass name superclass methods

theorem ending_finish_cond {condition : Expr} {consequence : Block}
    {alternative : Option Block}
    (hlength : vs.length =
      ((expr (.cond condition consequence alternative)).parts vs).length) :
    Ending options run scope (expr (.cond condition consequence alternative)) vs
      ((expr (.cond condition consequence alternative)).finish options run scope vs) := by
  match vs, hlength with
  | [], hlength => cases hlength
  | [v], _ => exact .bare trivial nofun
  | [v, branch], _ => exact .given (List.mem_cons_of_mem _ List.mem_cons_self)
  | v :: w :: u :: rest, hlength =>
      rw [parts] at hlength
      split at hlength
      · cases hlength
      · cases alternative <;> cases hlength

theorem ending_finish_call {callee : Expr} {args : List Expr}
    (hlength : vs.length = ((expr (.call callee args)).parts vs).length) :
    Ending options run scope (expr (.call callee args)) vs
      ((expr (.call callee args)).finish options run scope vs) := by
  cases vs with
  | nil => cases callee <;> cases hlength
  | cons first vs =>
      cases callee with
      | property object name =>
          cases vs with
          | nil => cases hlength
          | cons function vs =>
              refine .call (List.mem_cons_of_mem _ List.mem_cons_self) ?_ ?_ fun _ => rfl
              · exact fun v hv => List.mem_cons_of_mem _ (List.mem_cons_of_mem _ hv)
              · intro o ho
                cases first with
                | object o' => exact Option.mem_some_iff.mp ho ▸ List.mem_cons_self
                | _ => cases ho
      | _ =>
          refine .call List.mem_cons_self (List.subset_cons_self _ _) ?_ fun _ => rfl
          intro o ho
          cases ho

theorem ending_finish_expr {e : Expr} (hlength : vs.length = ((expr e).parts vs).length) :
    Ending options run scope (expr e) vs ((expr e).finish options run scope vs) := by
  cases e with
  | missing => exact .fail trivial
  | ident name => exact ending_readName _ name
  | int value digits => exact .literal value rfl
  | str value => exact .bare trivial nofun
  | bool value => exact .bare trivial nofun
  | null => exact .bare trivial nofun
  | this => exact .lookup "this" trivial
  | super => exact .lookup "super" trivial
  | array elements => exact .array
  | map pairs => exact .hash
  | index target position =>
      obtain ⟨v, w, rfl⟩ := List.length_eq_two.mp hlength
      exact .index List.mem_cons_self (List.mem_cons_of_mem _ List.mem_cons_self)
  | property object name =>
      obtain ⟨v, rfl⟩ := List.length_eq_one_iff.mp hlength
      exact .property name (.inl List.mem_cons_self)
  | assign target value => exact ending_finishAssign target value
  | new className args =>
      cases vs with
      | nil => cases hlength
      | cons callee vs => exact .new rfl fun _ => rfl
  | unary op operand =>
      obtain ⟨v, rfl⟩ := List.length_eq_one_iff.mp hlength
      exact .unary List.mem_cons_self
  | binary left op right =>
      obtain ⟨v, w, rfl⟩ := List.length_eq_two.mp hlength
      exact .binary List.mem_cons_self (List.mem_cons_of_mem _ List.mem_cons_self)
  | logical left op right => exact .bare trivial nofun
  | cond condition consequence alternative => exact ending_finish_cond hlength
  | function literal => exact .function rfl
  | call callee args => exact ending_finish_call hlength

/-- A node whose parts gave as many values as there are parts ends by one of the steps. -/
theorem ending_finish {node : Part} (hlength : vs.length = (node.parts vs).length) :
    Ending options run scope node vs (node.finish options run scope vs) := by
  cases node with
  | meaning name => exact ending_readName _ name
  | property target name => exact .property name (.inr rfl)
  | block b => exact ending_last
  | stmt s => exact ending_finish_stmt hlength
  | expr e => exact ending_finish_expr hlength

end Part

/-- Every ending is a last step. -/
theorem Ending.lastStep {options : Options} {run : RunBody} {scope : Nat} {node : Part}
    {vs : List Value} {x : Eval Value} (h : Ending options run scope node vs x) :
    LastStep options run scope node vs x := by
  cases h with
  | literal n hnode => exact .bare trivial
  | bare hv hne => exact .bare hv
  | given hv => exact .given hv
  | returned hv => exact .returned hv
  | builtin b => exact .builtin b
  | index htarget hposition => exact .index htarget hposition
  | unary h => exact .unary h
  | binary hleft hright => exact .binary hleft hright
  | fail h => exact .fail h
  | noClass hv => exact .noClass hv
  | array => exact .array
  | hash => exact .hash
  | function hnode => exact .function _
  | lookup name h => exact .lookup name h
  | property name h => exact .property name h
  | assignName hnode hv => exact .assignName _ hv
  | assignProperty hnode hvs =>
      subst hvs
      exact .assignProperty _ List.mem_cons_self (List.mem_cons_of_mem _ List.mem_cons_self)
  | new hvs hbody =>
      subst hvs
      exact .new List.mem_cons_self (List.subset_cons_self _ _)
  | call hfunction hargs hreceiver hbody => exact .call hfunction hargs hreceiver
  | bind hnode hv =>
      subst hnode
      exact .bind List.mem_cons_self hv
  | bindClass hnode hancestors =>
      subst hnode
      exact .bindClass List.mem_cons_self hancestors

/-- A node whose parts gave as many values as there are parts ends by one of the last steps. -/
theorem Part.lastStep_finish {options : Options} {run : RunBody} {scope : Nat} {node : Part}
    {vs : List Value} (hlength : vs.length = (node.parts vs).length) :
    LastStep options run scope node vs (node.finish options run scope vs) :=
  (ending_finish hlength).lastStep

end Scripting
