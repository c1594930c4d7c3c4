import Mathlib.Data.List.Basic
import Scripting.Proofs.Run.Declared

/-!
# The last step of a node

Once the parts of a node have given their values, one step is left, and there are few kinds of
steps: the node gives a value made of what it was given, or it does one thing to the state.
`LastStep` lists them, with all that is known of the values they work with. The last step of every
node is one of them (`Part.lastStep_finish`), so what holds of all of these steps holds of every
node, by induction along its parts.
-/

namespace Scripting

/-- Values with nothing in them: integers, texts, booleans and null. -/
def Value.IsBare : Value → Prop
  | .integer _ | .string _ | .boolean _ | .null => True
  | _ => False

/-- The errors of a node about itself and of a name that stands for nothing, which mention no
value. -/
def RuntimeError.IsBare : RuntimeError → Prop
  | .missingNode | .invalidTarget _ | .identifierNotFound _ | .thisNotFound | .superNotFound => True
  | _ => False

/-- The value of a name that has to be bound. -/
def Eval.lookupOrFail (scope : Nat) (name : String) (error : RuntimeError) : Eval Value := do
  match ← Eval.lookup scope name with
  | some value => pure value
  | none => Eval.fail error

/-- Reading a name is looking it up, unless it is that of a built-in function. -/
theorem readName_eq (scope : Nat) (name : String) :
    readName scope name =
      match Builtin.ofName? name with
      | some b => pure (.builtin b)
      | none => Eval.lookupOrFail scope name (.identifierNotFound name) := by
  unfold readName
  cases Builtin.ofName? name <;> rfl

/-- The steps by which a node whose parts gave the values `vs` may end. -/
inductive LastStep (options : Options) (run : RunBody) (scope : Nat) (node : Part)
    (vs : List Value) : Eval Value → Prop where
  | bare {v : Value} (hv : v.IsBare) : LastStep options run scope node vs (pure v)
  | given {v : Value} (hv : v ∈ vs) : LastStep options run scope node vs (pure v)
  | returned {v : Value} (hv : v = .null ∨ v ∈ vs) :
      LastStep options run scope node vs (pure (.returned v))
  | builtin (b : Builtin) : LastStep options run scope node vs (pure (.builtin b))
  | index {target position : Value} (htarget : target ∈ vs) (hposition : position ∈ vs) :
      LastStep options run scope node vs (pure (target.index position))
  | unary {op : String} {operand : Value} (h : operand ∈ vs) :
      LastStep options run scope node vs (pure (Value.unary op operand))
  | binary {left right : Value} {op : String} (hleft : left ∈ vs) (hright : right ∈ vs) :
      LastStep options run scope node vs (pure (left.binary op right))
  | fail {error : RuntimeError} (h : error.IsBare) :
      LastStep options run scope node vs (Eval.fail error)
  | noClass {v : Value} (hv : v ∈ vs) :
      LastStep options run scope node vs (Eval.fail (.superclassNotClass v.type))
  | array : LastStep options run scope node vs (Eval.newArray vs)
  | hash : LastStep options run scope node vs (Eval.newHash (Part.inPairs vs))
  | function (literal : FunctionLiteral) :
      LastStep options run scope node vs
        (return .function ⟨← Eval.freshIdent, literal, scope⟩)
  | lookup (name : String) {error : RuntimeError} (h : error.IsBare) :
      LastStep options run scope node vs (Eval.lookupOrFail scope name error)
  | property {target : Value} (name : String)
      (h : target ∈ vs ∨ node = .property target name) :
      LastStep options run scope node vs (readProperty options scope target name)
  | assignName (name : String) {v : Value} (hv : v ∈ vs) :
      LastStep options run scope node vs (assignTo options scope name v)
  | assignProperty (name : String) {v target : Value} (hv : v ∈ vs) (htarget : target ∈ vs) :
      LastStep options run scope node vs (assignProperty target name v)
  | new {callee : Value} {args : List Value} (hcallee : callee ∈ vs) (hargs : args ⊆ vs) :
      LastStep options run scope node vs (makeObject options run callee args)
  | call {function : Value} {args : List Value} {receiver : Option Object}
      (hfunction : function ∈ vs) (hargs : args ⊆ vs)
      (hreceiver : ∀ o ∈ receiver, Value.object o ∈ vs) :
      LastStep options run scope node vs (callValue options run function args receiver)
  | bind {name : String} {v : Value} (hname : name ∈ node.declared) (hv : v ∈ vs) :
      LastStep options run scope node vs (do
        Eval.bindName scope name v
        pure .null)
  | bindClass {name : String} {methods : List (String × FunctionLiteral)}
      {ancestors : List ClassBody} (hname : name ∈ node.declared)
      (hancestors : ancestors = [] ∨ ∃ c : Class, Value.cls c ∈ vs ∧
        ancestors = c.own :: c.ancestors) :
      LastStep options run scope node vs (Part.bindClass scope name methods ancestors)

end Scripting
