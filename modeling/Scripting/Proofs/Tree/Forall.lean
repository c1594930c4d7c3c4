import Scripting.Tree

/-!
# Properties of all expressions in a tree

`Forall p` says of an expression, a block or a function literal that `p` holds of every expression
in it, the bodies of functions and methods included. A bare `return` has no expression in it.
-/

namespace Scripting

mutual

/-- `p` holds of an expression and of all expressions in it. -/
def Expr.Forall (p : Expr → Prop) : Expr → Prop
  | .array elements => p (.array elements) ∧ Expr.ForallIn p elements
  | .map pairs => p (.map pairs) ∧ Expr.ForallInPairs p pairs
  | .index target position => p (.index target position) ∧ target.Forall p ∧ position.Forall p
  | .property object name => p (.property object name) ∧ object.Forall p
  | .assign target value => p (.assign target value) ∧ target.Forall p ∧ value.Forall p
  | .new className args => p (.new className args) ∧ Expr.ForallIn p args
  | .unary op operand => p (.unary op operand) ∧ operand.Forall p
  | .binary left op right => p (.binary left op right) ∧ left.Forall p ∧ right.Forall p
  | .logical left op right => p (.logical left op right) ∧ left.Forall p ∧ right.Forall p
  | .cond condition consequence none =>
      p (.cond condition consequence none) ∧ condition.Forall p ∧ Block.Forall p consequence
  | .cond condition consequence (some alternative) =>
      p (.cond condition consequence (some alternative)) ∧ condition.Forall p ∧
        Block.Forall p consequence ∧ Block.Forall p alternative
  | .function literal => p (.function literal) ∧ literal.Forall p
  | .call callee args => p (.call callee args) ∧ callee.Forall p ∧ Expr.ForallIn p args
  | e => p e

/-- `p` holds of all expressions in some expressions. -/
def Expr.ForallIn (p : Expr → Prop) : List Expr → Prop
  | [] => True
  | e :: rest => e.Forall p ∧ Expr.ForallIn p rest

/-- `p` holds of all expressions in the pairs of a map. -/
def Expr.ForallInPairs (p : Expr → Prop) : List (Expr × Expr) → Prop
  | [] => True
  | (key, value) :: rest => key.Forall p ∧ value.Forall p ∧ Expr.ForallInPairs p rest

/-- `p` holds of all expressions in a statement. -/
def Stmt.Forall (p : Expr → Prop) : Stmt → Prop
  | .letIn _ value => value.Forall p
  | .ret .missing => True
  | .ret value => value.Forall p
  | .expr value => value.Forall p
  | .classDef _ _ methods => FunctionLiteral.ForallIn p methods

/-- `p` holds of all expressions in a block. -/
def Block.Forall (p : Expr → Prop) : List Stmt → Prop
  | [] => True
  | s :: rest => s.Forall p ∧ Block.Forall p rest

/-- `p` holds of all expressions in the body of a function. -/
def FunctionLiteral.Forall (p : Expr → Prop) : FunctionLiteral → Prop
  | .mk _ body => Block.Forall p body

/-- `p` holds of all expressions in the methods of a class. -/
def FunctionLiteral.ForallIn (p : Expr → Prop) : List (String × FunctionLiteral) → Prop
  | [] => True
  | (_, method) :: rest => method.Forall p ∧ FunctionLiteral.ForallIn p rest

end

variable {p : Expr → Prop}

theorem Stmt.forall_ret {value : Expr} (h : value ≠ .missing) :
    (Stmt.ret value).Forall p ↔ value.Forall p := by
  rw [Stmt.Forall]
  exact h

/-! ### Properties that all expressions have -/

mutual

theorem Expr.forall_of (h : ∀ e, p e) (e : Expr) : e.Forall p := by
  match e with
  | .array elements =>
      rw [Expr.Forall]
      exact ⟨h _, Expr.forallIn_of h elements⟩
  | .map pairs =>
      rw [Expr.Forall]
      exact ⟨h _, Expr.forallInPairs_of h pairs⟩
  | .index target position =>
      rw [Expr.Forall]
      exact ⟨h _, Expr.forall_of h target, Expr.forall_of h position⟩
  | .property object name =>
      rw [Expr.Forall]
      exact ⟨h _, Expr.forall_of h object⟩
  | .assign target value =>
      rw [Expr.Forall]
      exact ⟨h _, Expr.forall_of h target, Expr.forall_of h value⟩
  | .new className args =>
      rw [Expr.Forall]
      exact ⟨h _, Expr.forallIn_of h args⟩
  | .unary op operand =>
      rw [Expr.Forall]
      exact ⟨h _, Expr.forall_of h operand⟩
  | .binary left op right =>
      rw [Expr.Forall]
      exact ⟨h _, Expr.forall_of h left, Expr.forall_of h right⟩
  | .logical left op right =>
      rw [Expr.Forall]
      exact ⟨h _, Expr.forall_of h left, Expr.forall_of h right⟩
  | .cond condition consequence none =>
      rw [Expr.Forall]
      exact ⟨h _, Expr.forall_of h condition, Block.forall_of h consequence⟩
  | .cond condition consequence (some alternative) =>
      rw [Expr.Forall]
      exact ⟨h _, Expr.forall_of h condition, Block.forall_of h consequence,
        Block.forall_of h alternative⟩
  | .function literal =>
      rw [Expr.Forall]
      exact ⟨h _, FunctionLiteral.forall_of h literal⟩
  | .call callee args =>
      rw [Expr.Forall]
      exact ⟨h _, Expr.forall_of h callee, Expr.forallIn_of h args⟩
  | .missing | .ident _ | .int _ _ | .str _ | .bool _ | .null | .this | .super => exact h _

theorem Expr.forallIn_of (h : ∀ e, p e) (es : List Expr) : Expr.ForallIn p es := by
  match es with
  | [] => trivial
  | e :: rest => exact ⟨Expr.forall_of h e, Expr.forallIn_of h rest⟩

theorem Expr.forallInPairs_of (h : ∀ e, p e) (pairs : List (Expr × Expr)) :
    Expr.ForallInPairs p pairs := by
  match pairs with
  | [] => trivial
  | (key, value) :: rest =>
      exact ⟨Expr.forall_of h key, Expr.forall_of h value, Expr.forallInPairs_of h rest⟩

theorem Stmt.forall_of (h : ∀ e, p e) (s : Stmt) : s.Forall p := by
  match s with
  | .letIn name value => exact Expr.forall_of h value
  | .ret value =>
      by_cases hmissing : value = .missing
      · subst hmissing
        trivial
      · exact (Stmt.forall_ret hmissing).mpr (Expr.forall_of h value)
  | .expr value => exact Expr.forall_of h value
  | .classDef name superclass methods => exact FunctionLiteral.forallIn_of h methods

theorem Block.forall_of (h : ∀ e, p e) (block : List Stmt) : Block.Forall p block := by
  match block with
  | [] => trivial
  | s :: rest => exact ⟨Stmt.forall_of h s, Block.forall_of h rest⟩

theorem FunctionLiteral.forall_of (h : ∀ e, p e) (literal : FunctionLiteral) :
    literal.Forall p := by
  match literal with
  | .mk params body => exact Block.forall_of h body

theorem FunctionLiteral.forallIn_of (h : ∀ e, p e) (methods : List (String × FunctionLiteral)) :
    FunctionLiteral.ForallIn p methods := by
  match methods with
  | [] => trivial
  | (name, method) :: rest =>
      exact ⟨FunctionLiteral.forall_of h method, FunctionLiteral.forallIn_of h rest⟩

end

/-! ### What holds everywhere in a list holds in each of its members -/

theorem Expr.forall_of_mem {es : List Expr} (h : Expr.ForallIn p es) {e : Expr} (he : e ∈ es) :
    e.Forall p := by
  induction es with
  | nil => cases he
  | cons e' es ih =>
      rcases List.mem_cons.mp he with rfl | he
      · exact h.1
      · exact ih h.2 he

theorem Expr.forall_of_mem_pairs {pairs : List (Expr × Expr)} (h : Expr.ForallInPairs p pairs)
    {pair : Expr × Expr} (hpair : pair ∈ pairs) : pair.1.Forall p ∧ pair.2.Forall p := by
  induction pairs with
  | nil => cases hpair
  | cons pair' pairs ih =>
      obtain ⟨key, value⟩ := pair'
      rcases List.mem_cons.mp hpair with rfl | hpair
      · exact ⟨h.1, h.2.1⟩
      · exact ih h.2.2 hpair

theorem Block.forall_of_mem {b : Block} (h : Block.Forall p b) {s : Stmt} (hs : s ∈ b) :
    s.Forall p := by
  induction b with
  | nil => cases hs
  | cons s' b ih =>
      rcases List.mem_cons.mp hs with rfl | hs
      · exact h.1
      · exact ih h.2 hs

theorem Block.forall_append {b b' : Block} :
    Block.Forall p (b ++ b') ↔ Block.Forall p b ∧ Block.Forall p b' := by
  induction b with
  | nil => exact (and_iff_right trivial).symm
  | cons s b ih => rw [List.cons_append, Block.Forall, Block.Forall, ih, and_assoc]

theorem FunctionLiteral.forallIn_iff (methods : List (String × FunctionLiteral)) :
    FunctionLiteral.ForallIn p methods ↔ ∀ row ∈ methods, row.2.Forall p := by
  induction methods with
  | nil => simp [FunctionLiteral.ForallIn]
  | cons row methods ih =>
      obtain ⟨name, method⟩ := row
      simp [FunctionLiteral.ForallIn, ih]

theorem FunctionLiteral.forall_body {literal : FunctionLiteral}
    (h : literal.Forall p) : Block.Forall p literal.body := by
  cases literal with
  | mk params body => exact h

end Scripting
