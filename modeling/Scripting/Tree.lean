/-!
# Syntax trees

Expressions, statements and function literals. A tree read from a faulty text may have a
`missing` expression where something could not be read; a bare `return` has one as its value too.
Operators are kept as they were written, and integers keep their digits beside their value.

A block and a whole program are both lists of statements.
-/

namespace Scripting

mutual

/-- Expressions. -/
inductive Expr where
  /-- What could not be read. -/
  | missing
  | ident (name : String)
  /-- An integer with the digits it was written with. -/
  | int (value : Int) (literal : String)
  | str (value : String)
  | bool (value : Bool)
  | null
  | this
  | super
  | array (elements : List Expr)
  | map (pairs : List (Expr × Expr))
  | index (target position : Expr)
  | property (object : Expr) (name : String)
  | assign (target value : Expr)
  /-- A new object of the class under a name. -/
  | new (className : String) (args : List Expr)
  | unary (op : String) (operand : Expr)
  | binary (left : Expr) (op : String) (right : Expr)
  /-- An operation whose right side is evaluated only when it decides the result. -/
  | logical (left : Expr) (op : String) (right : Expr)
  | cond (condition : Expr) (consequence : List Stmt) (alternative : Option (List Stmt))
  | function (literal : FunctionLiteral)
  | call (callee : Expr) (args : List Expr)

/-- Statements. -/
inductive Stmt where
  | letIn (name : String) (value : Expr)
  /-- A `return`; the value of a bare one is missing. -/
  | ret (value : Expr)
  | expr (value : Expr)
  /-- A class with the name of its superclass and its methods in order. -/
  | classDef (name : String) (superclass : Option String)
      (methods : List (String × FunctionLiteral))

/-- The parameters and the body of a function. -/
inductive FunctionLiteral where
  | mk (params : List String) (body : List Stmt)

end

instance : Inhabited Expr := ⟨.missing⟩

instance : Inhabited Stmt := ⟨.expr .missing⟩

/-- Statements one after another. -/
abbrev Block := List Stmt

namespace FunctionLiteral

/-- The parameters of a function literal. -/
def params : FunctionLiteral → List String
  | mk params _ => params

/-- The body of a function literal. -/
def body : FunctionLiteral → Block
  | mk _ body => body

@[simp] theorem params_mk (ps : List String) (b : Block) : (mk ps b).params = ps := rfl

@[simp] theorem body_mk (ps : List String) (b : Block) : (mk ps b).body = b := rfl

end FunctionLiteral

namespace Expr

/-- Whether an expression can be assigned to: a name and a property can. -/
def isAssignable : Expr → Bool
  | ident _ | property _ _ => true
  | _ => false

theorem isAssignable_iff (e : Expr) :
    e.isAssignable = true ↔
      (∃ name, e = ident name) ∨ ∃ object name, e = property object name := by
  cases e <;> simp [isAssignable]

end Expr

end Scripting
