import Scripting.Proofs.Run.Part

/-!
# The names that a node declares

A `let` and a class bind a name in the scope in which they are evaluated. The branches of a
condition are evaluated in the scope of the condition, so what they declare counts; the bodies of
functions and methods are evaluated in scopes of their own and do not count.
-/

namespace Scripting

mutual

/-- The names of the `let` statements and classes in an expression, outside bodies of functions. -/
def Expr.declared : Expr → List String
  | .array elements => Expr.declaredIn elements
  | .map pairs => Expr.declaredInPairs pairs
  | .index target position => target.declared ++ position.declared
  | .property object _ => object.declared
  | .assign target value => target.declared ++ value.declared
  | .new _ args => Expr.declaredIn args
  | .unary _ operand => operand.declared
  | .binary left _ right => left.declared ++ right.declared
  | .logical left _ right => left.declared ++ right.declared
  | .cond condition consequence none => condition.declared ++ Block.declared consequence
  | .cond condition consequence (some alternative) =>
      condition.declared ++ Block.declared consequence ++ Block.declared alternative
  | .call callee args => callee.declared ++ Expr.declaredIn args
  | _ => []

/-- The names declared in expressions. -/
def Expr.declaredIn : List Expr → List String
  | [] => []
  | e :: rest => e.declared ++ Expr.declaredIn rest

/-- The names declared in the expressions of pairs. -/
def Expr.declaredInPairs : List (Expr × Expr) → List String
  | [] => []
  | (key, value) :: rest => key.declared ++ value.declared ++ Expr.declaredInPairs rest

/-- The names of the `let` statements and classes in a statement, outside bodies of functions and
methods. -/
def Stmt.declared : Stmt → List String
  | .letIn name value => name :: value.declared
  | .ret value => value.declared
  | .expr value => value.declared
  | .classDef name _ _ => [name]

/-- The names declared in statements. -/
def Block.declared : List Stmt → List String
  | [] => []
  | s :: rest => s.declared ++ Block.declared rest

end

theorem Expr.declaredIn_subset {e : Expr} {es : List Expr} (h : e ∈ es) :
    e.declared ⊆ Expr.declaredIn es := by
  induction es with
  | nil => cases h
  | cons e' es ih =>
      rw [Expr.declaredIn]
      rcases List.mem_cons.mp h with rfl | h
      · exact List.subset_append_left _ _
      · exact List.subset_append_of_subset_right _ (ih h)

theorem Expr.declaredInPairs_subset {pair : Expr × Expr} {pairs : List (Expr × Expr)}
    (h : pair ∈ pairs) : pair.1.declared ++ pair.2.declared ⊆ Expr.declaredInPairs pairs := by
  induction pairs with
  | nil => cases h
  | cons pair' pairs ih =>
      obtain ⟨key, value⟩ := pair'
      rw [Expr.declaredInPairs]
      rcases List.mem_cons.mp h with rfl | h
      · exact List.subset_append_left _ _
      · exact List.subset_append_of_subset_right _ (ih h)

theorem Block.declared_subset {s : Stmt} {b : Block} (h : s ∈ b) :
    s.declared ⊆ Block.declared b := by
  induction b with
  | nil => cases h
  | cons s' b ih =>
      rw [Block.declared]
      rcases List.mem_cons.mp h with rfl | h
      · exact List.subset_append_left _ _
      · exact List.subset_append_of_subset_right _ (ih h)

namespace Part

/-- The names that a node declares in the scope in which it is evaluated. -/
def declared : Part → List String
  | expr e => e.declared
  | stmt s => s.declared
  | block b => Block.declared b
  | meaning _ => []
  | property _ _ => []

theorem declared_subset_of_args {part : Part} {args : List Expr} (h : part ∈ args.map expr) :
    part.declared ⊆ Expr.declaredIn args := by
  obtain ⟨e, he, rfl⟩ := List.mem_map.mp h
  exact Expr.declaredIn_subset he

theorem declared_subset_of_pair {part first second : Part} (h : part ∈ [first, second]) :
    part.declared ⊆ first.declared ++ second.declared := by
  rcases List.mem_cons.mp h with rfl | h
  · exact List.subset_append_left _ _
  · rw [List.mem_singleton.mp h]
    exact List.subset_append_right _ _

theorem declared_subset_cond {condition : Expr} {consequence : Block}
    {alternative : Option Block} {part : Part} {vs : List Value}
    (h : part ∈ (expr (.cond condition consequence alternative)).parts vs) :
    part.declared ⊆ (Expr.cond condition consequence alternative).declared := by
  have hcondition : condition.declared ⊆
      (Expr.cond condition consequence alternative).declared := by
    cases alternative with
    | none => exact List.subset_append_left _ _
    | some alternative =>
        exact List.subset_append_of_subset_left _ (List.subset_append_left _ _)
  have hconsequence : Block.declared consequence ⊆
      (Expr.cond condition consequence alternative).declared := by
    cases alternative with
    | none => exact List.subset_append_right _ _
    | some alternative =>
        exact List.subset_append_of_subset_left _ (List.subset_append_right _ _)
  cases vs with
  | nil => exact List.mem_singleton.mp h ▸ hcondition
  | cons v vs =>
      rw [parts] at h
      rcases List.mem_cons.mp h with rfl | h
      · exact hcondition
      · split at h
        · exact List.mem_singleton.mp h ▸ hconsequence
        · cases alternative with
          | none => cases h
          | some alternative =>
              rw [List.mem_singleton.mp h]
              exact List.subset_append_right _ _

theorem declared_subset_call {callee : Expr} {args : List Expr} {part : Part} {vs : List Value}
    (h : part ∈ (expr (.call callee args)).parts vs) :
    part.declared ⊆ (Expr.call callee args).declared := by
  have hcallee : callee.declared ⊆ (Expr.call callee args).declared :=
    List.subset_append_left _ _
  have hargs (h : part ∈ args.map expr) : part.declared ⊆ (Expr.call callee args).declared :=
    List.subset_append_of_subset_right _ (declared_subset_of_args h)
  cases callee with
  | property object name =>
      cases vs with
      | nil => exact List.mem_singleton.mp h ▸ hcallee
      | cons v vs =>
          rcases List.mem_cons.mp h with rfl | h
          · exact hcallee
          · rcases List.mem_cons.mp h with rfl | h
            · exact List.nil_subset _
            · exact hargs h
  | _ =>
      rcases List.mem_cons.mp h with rfl | h
      · exact hcallee
      · exact hargs h

theorem declared_subset_expr {e : Expr} {part : Part} {vs : List Value}
    (h : part ∈ (expr e).parts vs) : part.declared ⊆ e.declared := by
  cases e with
  | array elements => exact declared_subset_of_args h
  | map pairs =>
      obtain ⟨pair, hpairs, h⟩ := List.mem_flatMap.mp h
      exact List.Subset.trans (declared_subset_of_pair h) (Expr.declaredInPairs_subset hpairs)
  | index target position => exact declared_subset_of_pair h
  | property object name =>
      rw [List.mem_singleton.mp h]
      exact List.Subset.refl _
  | assign target value =>
      have hvalue : value.declared ⊆ (Expr.assign target value).declared :=
        List.subset_append_right _ _
      cases target with
      | property object name =>
          rcases List.mem_cons.mp h with rfl | h
          · exact hvalue
          · rw [List.mem_singleton.mp h]
            exact List.subset_append_left _ _
      | _ => exact List.mem_singleton.mp h ▸ hvalue
  | new className args =>
      rcases List.mem_cons.mp h with rfl | h
      · exact List.nil_subset _
      · exact declared_subset_of_args h
  | unary op operand =>
      rw [List.mem_singleton.mp h]
      exact List.Subset.refl _
  | binary left op right => exact declared_subset_of_pair h
  | logical left op right =>
      have hparts : part ∈ [expr left, expr right] := by
        cases vs with
        | nil => exact List.mem_cons.mpr (.inl (List.mem_singleton.mp h))
        | cons v vs =>
            rw [parts] at h
            split at h
            · exact List.mem_cons.mpr (.inl (List.mem_singleton.mp h))
            · exact h
      exact declared_subset_of_pair hparts
  | cond condition consequence alternative => exact declared_subset_cond h
  | call callee args => exact declared_subset_call h
  | _ => cases h

/-- A node declares what its parts declare. -/
theorem declared_subset {node part : Part} {vs : List Value} (h : part ∈ node.parts vs) :
    part.declared ⊆ node.declared := by
  cases node with
  | expr e => exact declared_subset_expr h
  | stmt s =>
      cases s with
      | letIn name value =>
          rw [List.mem_singleton.mp h]
          exact List.subset_cons_self _ _
      | ret value =>
          have hpart : part = expr value := by
            cases value with
            | missing => cases h
            | _ => exact List.mem_singleton.mp h
          rw [hpart]
          exact List.Subset.refl _
      | expr value =>
          rw [List.mem_singleton.mp h]
          exact List.Subset.refl _
      | classDef name superclass methods =>
          cases superclass with
          | none => cases h
          | some parent =>
              rw [List.mem_singleton.mp h]
              exact List.nil_subset _
  | block b =>
      obtain ⟨s, hs, rfl⟩ := List.mem_map.mp h
      exact Block.declared_subset hs
  | meaning name => cases h
  | property target name => cases h

end Part

end Scripting
