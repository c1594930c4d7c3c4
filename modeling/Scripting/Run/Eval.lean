import Scripting.Run.Call

/-!
# Evaluation

Expressions and statements are evaluated along the tree, children from left to right. Whoever
evaluates a child looks at what it gave: a signal is handed on as the result of the parent, and
nothing after it is evaluated (`Eval.onValue`, `Eval.onGathered`). Every body of a function or a
constructor is run through `runBody`, which counts how deep bodies nest and gives up at a limit, so
evaluation always ends.
-/

namespace Scripting

section

variable (options : Options) (run : RunBody) (scope : Nat)

mutual

/-- The value of an expression. -/
def Expr.eval : Expr → Eval Value
  | .missing => Eval.fail .missingNode
  | .ident name => readName scope name
  | .int value _ => pure (.integer value)
  | .str value => pure (.string value)
  | .bool value => pure (.boolean value)
  | .null => pure .null
  | .this => do
      match ← Eval.lookup scope "this" with
      | some value => pure value
      | none => Eval.fail .thisNotFound
  | .super => do
      match ← Eval.lookup scope "super" with
      | some value => pure value
      | none => Eval.fail .superNotFound
  | .array elements => (Expr.evalAll elements).onGathered Eval.newArray
  | .map pairs => (Expr.evalPairs pairs).onGathered Eval.newHash
  | .index target position =>
      target.eval.onValue fun target =>
        position.eval.onValue fun position => pure (target.index position)
  | .property object name =>
      object.eval.onValue fun target => readProperty options scope target name
  | .assign target value =>
      value.eval.onValue fun value =>
        match target with
        | .ident name => assignTo options scope name value
        | .property object name =>
            object.eval.onValue fun target => assignProperty target name value
        | other => Eval.fail (.invalidTarget other.render)
  | .new className args =>
      (readName scope className).onValue fun callee =>
        (Expr.evalAll args).onGathered fun args => makeObject options run callee args
  | .unary op operand => operand.eval.onValue fun operand => pure (Value.unary op operand)
  | .binary left op right =>
      left.eval.onValue fun left => right.eval.onValue fun right => pure (left.binary op right)
  | .logical left op right =>
      left.eval.onValue fun left =>
        if op = "&&" ∧ left.isTruthy = false then pure (.boolean false)
        else if op = "||" ∧ left.isTruthy = true then pure (.boolean true)
        else right.eval.onValue fun right => pure (.boolean right.isTruthy)
  | .cond condition consequence alternative =>
      condition.eval.onValue fun condition =>
        if condition.isTruthy then Block.evalFrom .null consequence
        else
          match alternative with
          | none => pure .null
          | some block => Block.evalFrom .null block
  | .function literal => return .function ⟨← Eval.freshIdent, literal, scope⟩
  | .call callee args =>
      match callee with
      | .property object name =>
          object.eval.onValue fun target =>
            (readProperty options scope target name).onValue fun function =>
              (Expr.evalAll args).onGathered fun args =>
                callValue options run function args target.object?
      | callee =>
          callee.eval.onValue fun function =>
            (Expr.evalAll args).onGathered fun args => callValue options run function args none

/-- The values of expressions, from left to right, up to the first signal. -/
def Expr.evalAll : List Expr → Eval (Except Value (List Value))
  | [] => pure (.ok [])
  | e :: rest => do
      let value ← e.eval
      if value.isSignal then pure (.error value)
      else return (← Expr.evalAll rest).map (value :: ·)

/-- The values of pairs, each key before its value, up to the first signal. -/
def Expr.evalPairs : List (Expr × Expr) → Eval (Except Value (List (Value × Value)))
  | [] => pure (.ok [])
  | (key, value) :: rest => do
      let key ← key.eval
      if key.isSignal then pure (.error key)
      else
        let value ← value.eval
        if value.isSignal then pure (.error value)
        else return (← Expr.evalPairs rest).map ((key, value) :: ·)

/-- The value of a statement: null, but for an expression and for a signal. -/
def Stmt.eval : Stmt → Eval Value
  | .letIn name value =>
      value.eval.onValue fun value => do
        Eval.bindName scope name value
        pure .null
  | .ret value =>
      match value with
      | .missing => pure (.returned .null)
      | value => value.eval.onValue fun value => pure (.returned value)
  | .expr value => value.eval
  | .classDef name superclass methods =>
      (makeClass scope name superclass methods).onValue fun c => do
        Eval.bindName scope name c
        pure .null

/-- The value of the last statement of a block, or `last` if there are none; a signal ends the
block. -/
def Block.evalFrom (last : Value) : List Stmt → Eval Value
  | [] => pure last
  | s :: rest => s.eval.onValue fun value => Block.evalFrom value rest

end

/-- The value of a block. -/
def Block.eval (block : Block) : Eval Value :=
  Block.evalFrom options run scope .null block

/-- The value of a program: a `return` ends it with its value. -/
def Block.evalProgram (program : Block) : Eval Value :=
  return (← Block.eval options run scope program).unwrapReturn

end

/-- Runs a body with at most `depth` bodies nested, itself included. -/
def runBody (options : Options) : (depth : Nat) → RunBody
  | 0 => fun _ _ => Eval.tooDeep
  | depth + 1 => fun block scope => Block.eval options (runBody options depth) scope block

end Scripting
