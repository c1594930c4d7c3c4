import Scripting.Proofs.Run.Part

/-!
# All nodes of a tree

`Part.nodes` lists a node and all nodes below it that evaluation can come to, the bodies of
functions and methods included, each node before those below it. The nodes of a part are among
those below its parent (`Part.nodes_sublist`), so a recursion along parts ends, and what holds of
all nodes of a tree holds of all nodes of its parts.
-/

namespace Scripting

mutual

/-- An expression and all nodes below it. -/
def Expr.nodes : Expr → List Part
  | .array elements => .expr (.array elements) :: Expr.nodesIn elements
  | .map pairs => .expr (.map pairs) :: Expr.nodesInPairs pairs
  | .index target position => .expr (.index target position) :: (target.nodes ++ position.nodes)
  | .property object name => .expr (.property object name) :: object.nodes
  | .assign (.property object name) value =>
      .expr (.assign (.property object name) value) :: (value.nodes ++ object.nodes)
  | .assign target value => .expr (.assign target value) :: value.nodes
  | .new className args =>
      .expr (.new className args) :: .meaning className :: Expr.nodesIn args
  | .unary op operand => .expr (.unary op operand) :: operand.nodes
  | .binary left op right => .expr (.binary left op right) :: (left.nodes ++ right.nodes)
  | .logical left op right => .expr (.logical left op right) :: (left.nodes ++ right.nodes)
  | .cond condition consequence none =>
      .expr (.cond condition consequence none) ::
        (condition.nodes ++ .block consequence :: Block.nodesIn consequence)
  | .cond condition consequence (some alternative) =>
      .expr (.cond condition consequence (some alternative)) ::
        (condition.nodes ++ (.block consequence :: Block.nodesIn consequence) ++
          .block alternative :: Block.nodesIn alternative)
  | .function literal => .expr (.function literal) :: literal.nodes
  | .call (.property object name) args =>
      .expr (.call (.property object name) args) :: (object.nodes ++ Expr.nodesIn args)
  | .call callee args => .expr (.call callee args) :: (callee.nodes ++ Expr.nodesIn args)
  | e => [.expr e]

/-- Expressions and all nodes below them. -/
def Expr.nodesIn : List Expr → List Part
  | [] => []
  | e :: rest => e.nodes ++ Expr.nodesIn rest

/-- The expressions of pairs and all nodes below them. -/
def Expr.nodesInPairs : List (Expr × Expr) → List Part
  | [] => []
  | (key, value) :: rest => key.nodes ++ value.nodes ++ Expr.nodesInPairs rest

/-- A statement and all nodes below it. -/
def Stmt.nodes : Stmt → List Part
  | .letIn name value => .stmt (.letIn name value) :: value.nodes
  | .ret value => .stmt (.ret value) :: value.nodes
  | .expr value => .stmt (.expr value) :: value.nodes
  | .classDef name superclass methods =>
      .stmt (.classDef name superclass methods) ::
        ((superclass.map .meaning).toList ++ FunctionLiteral.nodesIn methods)

/-- Statements and all nodes below them. -/
def Block.nodesIn : List Stmt → List Part
  | [] => []
  | s :: rest => s.nodes ++ Block.nodesIn rest

/-- The body of a function and all nodes below it. -/
def FunctionLiteral.nodes : FunctionLiteral → List Part
  | .mk _ body => .block body :: Block.nodesIn body

/-- The bodies of methods and all nodes below them. -/
def FunctionLiteral.nodesIn : List (String × FunctionLiteral) → List Part
  | [] => []
  | (_, method) :: rest => method.nodes ++ FunctionLiteral.nodesIn rest

end

/-- A block and all nodes below it. -/
def Block.nodes (block : Block) : List Part :=
  .block block :: Block.nodesIn block

theorem FunctionLiteral.nodes_eq (literal : FunctionLiteral) :
    literal.nodes = Block.nodes literal.body := by
  cases literal
  rfl

namespace Part

/-- A node and all nodes below it. What is looked up is no node. -/
def nodes : Part → List Part
  | expr e => e.nodes
  | stmt s => s.nodes
  | block b => Block.nodes b
  | meaning name => [meaning name]
  | property _ _ => []

/-! ### The nodes of parts -/

theorem sublist_nodesIn {e : Expr} {es : List Expr} (h : e ∈ es) :
    e.nodes.Sublist (Expr.nodesIn es) := by
  induction es with
  | nil => cases h
  | cons e' es ih =>
      rw [Expr.nodesIn]
      rcases List.mem_cons.mp h with rfl | h
      · exact List.sublist_append_left _ _
      · exact (ih h).trans (List.sublist_append_right _ _)

theorem sublist_nodesInPairs {pair : Expr × Expr} {pairs : List (Expr × Expr)}
    (h : pair ∈ pairs) :
    (pair.1.nodes ++ pair.2.nodes).Sublist (Expr.nodesInPairs pairs) := by
  induction pairs with
  | nil => cases h
  | cons pair' pairs ih =>
      obtain ⟨key, value⟩ := pair'
      rw [Expr.nodesInPairs]
      rcases List.mem_cons.mp h with rfl | h
      · exact List.sublist_append_left _ _
      · exact (ih h).trans (List.sublist_append_right _ _)

theorem sublist_block_nodesIn {s : Stmt} {b : Block} (h : s ∈ b) :
    s.nodes.Sublist (Block.nodesIn b) := by
  induction b with
  | nil => cases h
  | cons s' b ih =>
      rw [Block.nodesIn]
      rcases List.mem_cons.mp h with rfl | h
      · exact List.sublist_append_left _ _
      · exact (ih h).trans (List.sublist_append_right _ _)

theorem sublist_literal_nodesIn {row : String × FunctionLiteral}
    {methods : List (String × FunctionLiteral)} (h : row ∈ methods) :
    (Block.nodes row.2.body).Sublist (FunctionLiteral.nodesIn methods) := by
  induction methods with
  | nil => cases h
  | cons row' methods ih =>
      obtain ⟨name, method⟩ := row'
      rw [FunctionLiteral.nodesIn]
      rcases List.mem_cons.mp h with rfl | h
      · rw [FunctionLiteral.nodes_eq]
        exact List.sublist_append_left _ _
      · exact (ih h).trans (List.sublist_append_right _ _)

theorem nodes_sublist_of_args {part : Part} {args : List Expr} (h : part ∈ args.map expr) :
    part.nodes.Sublist (Expr.nodesIn args) := by
  obtain ⟨e, he, rfl⟩ := List.mem_map.mp h
  exact sublist_nodesIn he

theorem nodes_sublist_stmt {s : Stmt} {part : Part} {vs : List Value}
    (h : part ∈ (stmt s).parts vs) : part.nodes.Sublist s.nodes.tail := by
  cases s with
  | letIn name value =>
      rw [List.mem_singleton.mp h]
      exact List.Sublist.refl _
  | ret value =>
      have hpart : part = expr value := by
        cases value with
        | missing => cases h
        | _ => exact List.mem_singleton.mp h
      rw [hpart]
      exact List.Sublist.refl _
  | expr value =>
      rw [List.mem_singleton.mp h]
      exact List.Sublist.refl _
  | classDef name superclass methods =>
      cases superclass with
      | none => cases h
      | some parent =>
          rw [List.mem_singleton.mp h]
          exact List.sublist_append_left [meaning parent] _

theorem nodes_sublist_expr {e : Expr} {part : Part} {vs : List Value}
    (h : part ∈ (expr e).parts vs) : part.nodes.Sublist e.nodes.tail := by
  have hpair {p q : Part} (h : part ∈ [p, q]) : part.nodes.Sublist (p.nodes ++ q.nodes) := by
    rcases List.mem_cons.mp h with rfl | h
    · exact List.sublist_append_left _ _
    · rw [List.mem_singleton.mp h]
      exact List.sublist_append_right _ _
  cases e with
  | array elements => exact nodes_sublist_of_args h
  | map pairs =>
      obtain ⟨pair, hpairs, h⟩ := List.mem_flatMap.mp h
      exact (hpair h).trans (sublist_nodesInPairs hpairs)
  | index target position => exact hpair h
  | property object name =>
      rw [List.mem_singleton.mp h]
      exact List.Sublist.refl _
  | assign target value =>
      cases target with
      | property object name => exact hpair h
      | _ =>
          rw [List.mem_singleton.mp h]
          exact List.Sublist.refl _
  | new className args =>
      rcases List.mem_cons.mp h with rfl | h
      · exact List.sublist_append_left [meaning className] _
      · exact (nodes_sublist_of_args h).trans (List.sublist_cons_self _ _)
  | unary op operand =>
      rw [List.mem_singleton.mp h]
      exact List.Sublist.refl _
  | binary left op right => exact hpair h
  | logical left op right =>
      have hparts : part ∈ [expr left, expr right] := by
        cases vs with
        | nil => exact List.mem_cons.mpr (.inl (List.mem_singleton.mp h))
        | cons v vs =>
            rw [parts] at h
            split at h
            · exact List.mem_cons.mpr (.inl (List.mem_singleton.mp h))
            · exact h
      exact hpair hparts
  | cond condition consequence alternative =>
      have hcondition : (expr condition).nodes.Sublist
          (Expr.cond condition consequence alternative).nodes.tail := by
        cases alternative with
        | none => exact List.sublist_append_left _ _
        | some alternative =>
            exact (List.sublist_append_left _ _).trans (List.sublist_append_left _ _)
      cases vs with
      | nil =>
          rw [List.mem_singleton.mp h]
          exact hcondition
      | cons v vs =>
          rw [parts] at h
          rcases List.mem_cons.mp h with rfl | h
          · exact hcondition
          · split at h
            · rw [List.mem_singleton.mp h]
              cases alternative with
              | none => exact List.sublist_append_right _ _
              | some alternative =>
                  exact (List.sublist_append_right _ _).trans (List.sublist_append_left _ _)
            · cases alternative with
              | none => cases h
              | some alternative =>
                  rw [List.mem_singleton.mp h]
                  exact List.sublist_append_right _ _
  | call callee args =>
      cases callee with
      | property object name =>
          cases vs with
          | nil =>
              rw [List.mem_singleton.mp h]
              exact List.sublist_append_left _ _
          | cons v vs =>
              rcases List.mem_cons.mp h with rfl | h
              · exact List.sublist_append_left _ _
              · rcases List.mem_cons.mp h with rfl | h
                · exact List.nil_sublist _
                · exact (nodes_sublist_of_args h).trans (List.sublist_append_right _ _)
      | _ =>
          rcases List.mem_cons.mp h with rfl | h
          · exact List.sublist_append_left _ _
          · exact (nodes_sublist_of_args h).trans (List.sublist_append_right _ _)
  | _ => cases h

/-- The nodes of a part are among the nodes below its parent. -/
theorem nodes_sublist {node part : Part} {vs : List Value} (h : part ∈ node.parts vs) :
    part.nodes.Sublist node.nodes.tail := by
  cases node with
  | expr e => exact nodes_sublist_expr h
  | stmt s => exact nodes_sublist_stmt h
  | block b =>
      obtain ⟨s, hs, rfl⟩ := List.mem_map.mp h
      exact sublist_block_nodesIn hs
  | meaning name => cases h
  | property target name => cases h

/-! ### A node comes before its parts -/

theorem nodes_expr (e : Expr) : e.nodes = expr e :: e.nodes.tail := by
  cases e with
  | assign target value => cases target <;> rfl
  | cond condition consequence alternative => cases alternative <;> rfl
  | call callee args => cases callee <;> rfl
  | _ => rfl

theorem nodes_stmt (s : Stmt) : s.nodes = stmt s :: s.nodes.tail := by
  cases s <;> rfl

/-- A node with parts is the first of its nodes. -/
theorem nodes_eq_cons {node part : Part} {vs : List Value} (h : part ∈ node.parts vs) :
    node.nodes = node :: node.nodes.tail := by
  cases node with
  | expr e => exact nodes_expr e
  | stmt s => exact nodes_stmt s
  | block b => rfl
  | meaning name => rfl
  | property target name => cases h

theorem length_nodes_lt {node part : Part} {vs : List Value} (h : part ∈ node.parts vs) :
    part.nodes.length < node.nodes.length := by
  rw [nodes_eq_cons h, List.length_cons]
  exact Nat.lt_succ_of_le (nodes_sublist h).length_le

/-- What is among the nodes of a part is among those of its parent. -/
theorem mem_nodes_of_mem_parts {node part n : Part} {vs : List Value} (h : part ∈ node.parts vs)
    (hn : n ∈ part.nodes) : n ∈ node.nodes :=
  List.mem_of_mem_tail ((nodes_sublist h).subset hn)

end Part

end Scripting
