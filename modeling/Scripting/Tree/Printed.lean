import Scripting.Tree

/-!
# The printed form of a tree

`Expr.render`, `Stmt.render` and `Block.render` write a tree as text: every operation in
parentheses, the statements of a block one after another without braces. A missing expression
prints as `None`, except as the value of a `let`, of a `return` or of an expression statement,
where nothing is printed in its place.
-/

namespace Scripting

/-- Texts with a comma and a blank between them. -/
def commaSeparated (parts : List String) : String :=
  ", ".intercalate parts

mutual

/-- The printed form of an expression. -/
def Expr.render : Expr → String
  | .missing => "None"
  | .ident name => name
  | .int _ literal => literal
  | .str value => value
  | .bool true => "true"
  | .bool false => "false"
  | .null => "null"
  | .this => "this"
  | .super => "super"
  | .array elements => "[" ++ commaSeparated (Expr.renderAll elements) ++ "]"
  | .map pairs => "\x7b" ++ commaSeparated (Expr.renderPairs pairs) ++ "\x7d"
  | .index target position => "(" ++ target.render ++ "[" ++ position.render ++ "])"
  | .property object name => object.render ++ "." ++ name
  | .assign target value => target.render ++ " = " ++ value.render
  | .new className args => "new " ++ className ++ "(" ++ commaSeparated (Expr.renderAll args) ++ ")"
  | .unary op operand => "(" ++ op ++ operand.render ++ ")"
  | .binary left op right => "(" ++ left.render ++ " " ++ op ++ " " ++ right.render ++ ")"
  | .logical left op right => "(" ++ left.render ++ " " ++ op ++ " " ++ right.render ++ ")"
  | .cond condition consequence none =>
      "if" ++ condition.render ++ " " ++ Block.render consequence
  | .cond condition consequence (some alternative) =>
      "if" ++ condition.render ++ " " ++ Block.render consequence ++
        "else " ++ Block.render alternative
  | .function literal => literal.render
  | .call callee args => callee.render ++ "(" ++ commaSeparated (Expr.renderAll args) ++ ")"

/-- The printed forms of expressions, in order. -/
def Expr.renderAll : List Expr → List String
  | [] => []
  | e :: rest => e.render :: Expr.renderAll rest

/-- The printed forms of the pairs of a map, in order. -/
def Expr.renderPairs : List (Expr × Expr) → List String
  | [] => []
  | (key, value) :: rest => (key.render ++ ":" ++ value.render) :: Expr.renderPairs rest

/-- The printed form of a statement. -/
def Stmt.render : Stmt → String
  | .letIn name .missing => "let " ++ name ++ " = ;"
  | .letIn name value => "let " ++ name ++ " = " ++ value.render ++ ";"
  | .ret .missing => "return;"
  | .ret value => "return " ++ value.render ++ ";"
  | .expr .missing => ""
  | .expr value => value.render
  | .classDef name none methods =>
      "class " ++ name ++ " \x7b " ++ FunctionLiteral.renderMethods methods ++ " \x7d"
  | .classDef name (some superclass) methods =>
      "class " ++ name ++ " extends " ++ superclass ++ " \x7b " ++
        FunctionLiteral.renderMethods methods ++ " \x7d"

/-- The printed form of statements one after another. -/
def Block.render : List Stmt → String
  | [] => ""
  | s :: rest => s.render ++ Block.render rest

/-- The printed form of a function literal. -/
def FunctionLiteral.render : FunctionLiteral → String
  | .mk params body => "func(" ++ commaSeparated params ++ ") " ++ Block.render body

/-- The printed form of the methods of a class. -/
def FunctionLiteral.renderMethods : List (String × FunctionLiteral) → String
  | [] => ""
  | (name, method) :: rest =>
      name ++ " = " ++ method.render ++ ";" ++ FunctionLiteral.renderMethods rest

end

theorem Expr.renderAll_eq_map (es : List Expr) : Expr.renderAll es = es.map Expr.render := by
  induction es with
  | nil => simp [Expr.renderAll]
  | cons e es ih => simp [Expr.renderAll, ih]

theorem Expr.renderPairs_eq_map (pairs : List (Expr × Expr)) :
    Expr.renderPairs pairs = pairs.map fun pair => pair.1.render ++ ":" ++ pair.2.render := by
  induction pairs with
  | nil => rw [Expr.renderPairs, List.map_nil]
  | cons pair pairs ih => rw [Expr.renderPairs, ih, List.map_cons]

theorem Stmt.render_letIn (name : String) {value : Expr} (h : value ≠ .missing) :
    Stmt.render (.letIn name value) = "let " ++ name ++ " = " ++ value.render ++ ";" := by
  rw [Stmt.render]
  exact h

theorem Stmt.render_ret {value : Expr} (h : value ≠ .missing) :
    Stmt.render (.ret value) = "return " ++ value.render ++ ";" := by
  rw [Stmt.render]
  exact h

theorem Stmt.render_expr {value : Expr} (h : value ≠ .missing) :
    Stmt.render (.expr value) = value.render := by
  rw [Stmt.render]
  exact h

/-- The printed form of a block is that of its statements, one after another. -/
theorem Block.render_append (a b : Block) :
    Block.render (a ++ b) = Block.render a ++ Block.render b := by
  induction a with
  | nil => simp [Block.render]
  | cons s a ih => simp [Block.render, ih, String.append_assoc]

end Scripting
