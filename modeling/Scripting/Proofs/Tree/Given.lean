import Scripting.Tree

/-!
# The names that a tree gives

A tree gives names to variables, to parameters, to classes, methods and properties, and it gives
values to names. `given` lists all of these, those in bodies of functions and methods included; a
name that is only read is not among them.
-/

namespace Scripting

mutual

/-- The names that an expression gives. -/
def Expr.given : Expr → List String
  | .array elements => Expr.givenIn elements
  | .map pairs => Expr.givenInPairs pairs
  | .index target position => target.given ++ position.given
  | .property object name => name :: object.given
  | .assign (.ident name) value => name :: value.given
  | .assign target value => target.given ++ value.given
  | .new className args => className :: Expr.givenIn args
  | .unary _ operand => operand.given
  | .binary left _ right => left.given ++ right.given
  | .logical left _ right => left.given ++ right.given
  | .cond condition consequence none => condition.given ++ Block.given consequence
  | .cond condition consequence (some alternative) =>
      condition.given ++ Block.given consequence ++ Block.given alternative
  | .function literal => literal.given
  | .call callee args => callee.given ++ Expr.givenIn args
  | _ => []

/-- The names given in expressions. -/
def Expr.givenIn : List Expr → List String
  | [] => []
  | e :: rest => e.given ++ Expr.givenIn rest

/-- The names given in the expressions of pairs. -/
def Expr.givenInPairs : List (Expr × Expr) → List String
  | [] => []
  | (key, value) :: rest => key.given ++ value.given ++ Expr.givenInPairs rest

/-- The names that a statement gives. -/
def Stmt.given : Stmt → List String
  | .letIn name value => name :: value.given
  | .ret value => value.given
  | .expr value => value.given
  | .classDef name superclass methods =>
      name :: (superclass.toList ++ FunctionLiteral.givenIn methods)

/-- The names given in statements. -/
def Block.given : List Stmt → List String
  | [] => []
  | s :: rest => s.given ++ Block.given rest

/-- The parameters of a function and the names given in its body. -/
def FunctionLiteral.given : FunctionLiteral → List String
  | .mk params body => params ++ Block.given body

/-- The names of methods and the names given in them. -/
def FunctionLiteral.givenIn : List (String × FunctionLiteral) → List String
  | [] => []
  | (name, method) :: rest => name :: (method.given ++ FunctionLiteral.givenIn rest)

end

/-- The names that an expression gives as the target of an assignment. -/
def Expr.givenAsTarget : Expr → List String
  | .ident name => [name]
  | e => e.given

theorem Expr.given_subset_givenAsTarget (e : Expr) : e.given ⊆ e.givenAsTarget := by
  cases e with
  | ident name => exact List.nil_subset _
  | _ => exact List.Subset.refl _

theorem Expr.given_assign (target value : Expr) :
    (Expr.assign target value).given = target.givenAsTarget ++ value.given := by
  cases target <;> rfl

theorem Block.given_append (b b' : Block) :
    Block.given (b ++ b') = Block.given b ++ Block.given b' := by
  induction b with
  | nil => rfl
  | cons s b ih => rw [List.cons_append, Block.given, Block.given, ih, List.append_assoc]

theorem FunctionLiteral.givenIn_append (methods more : List (String × FunctionLiteral)) :
    FunctionLiteral.givenIn (methods ++ more) =
      FunctionLiteral.givenIn methods ++ FunctionLiteral.givenIn more := by
  induction methods with
  | nil => rfl
  | cons row methods ih =>
      obtain ⟨name, method⟩ := row
      rw [List.cons_append, givenIn, givenIn, ih, List.cons_append, List.append_assoc]

/-! ### What is in a tree gives no more than the tree -/

theorem Expr.given_subset_givenIn {e : Expr} {es : List Expr} (h : e ∈ es) :
    e.given ⊆ Expr.givenIn es := by
  induction es with
  | nil => cases h
  | cons e' es ih =>
      rw [Expr.givenIn]
      rcases List.mem_cons.mp h with rfl | h
      · exact List.subset_append_left _ _
      · exact List.subset_append_of_subset_right _ (ih h)

theorem Expr.given_subset_givenInPairs {pair : Expr × Expr} {pairs : List (Expr × Expr)}
    (h : pair ∈ pairs) : pair.1.given ++ pair.2.given ⊆ Expr.givenInPairs pairs := by
  induction pairs with
  | nil => cases h
  | cons pair' pairs ih =>
      obtain ⟨key, value⟩ := pair'
      rw [Expr.givenInPairs]
      rcases List.mem_cons.mp h with rfl | h
      · exact List.subset_append_left _ _
      · exact List.subset_append_of_subset_right _ (ih h)

theorem Block.given_subset {s : Stmt} {b : Block} (h : s ∈ b) : s.given ⊆ Block.given b := by
  induction b with
  | nil => cases h
  | cons s' b ih =>
      rw [Block.given]
      rcases List.mem_cons.mp h with rfl | h
      · exact List.subset_append_left _ _
      · exact List.subset_append_of_subset_right _ (ih h)

theorem FunctionLiteral.given_subset_givenIn {row : String × FunctionLiteral}
    {methods : List (String × FunctionLiteral)} (h : row ∈ methods) :
    row.2.given ⊆ FunctionLiteral.givenIn methods := by
  induction methods with
  | nil => cases h
  | cons row' methods ih =>
      obtain ⟨name, method⟩ := row'
      rw [givenIn]
      rcases List.mem_cons.mp h with rfl | h
      · exact List.subset_cons_of_subset _ (List.subset_append_left _ _)
      · exact List.subset_cons_of_subset _ (List.subset_append_of_subset_right _ (ih h))

end Scripting
