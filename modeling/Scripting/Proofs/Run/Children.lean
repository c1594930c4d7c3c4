import Scripting.Proofs.Run.Part
import Scripting.Proofs.Tree.Forall
import Scripting.Proofs.Tree.Given

/-!
# The children of a node

Which parts a node comes to may depend on the value of the first of them. `Part.children` lists all
that it may come to and that stand in the tree; the one other part there can be is a property of a
value. So what is to hold of all parts has to be shown for the children only.
-/

namespace Scripting

namespace Part

/-- The nodes right below a node that evaluation can come to. -/
def children : Part → List Part
  | expr (.array elements) => elements.map expr
  | expr (.map pairs) => pairs.flatMap fun pair => [expr pair.1, expr pair.2]
  | expr (.index target position) => [expr target, expr position]
  | expr (.property object _) => [expr object]
  | expr (.assign (.property object _) value) => [expr value, expr object]
  | expr (.assign _ value) => [expr value]
  | expr (.new className args) => meaning className :: args.map expr
  | expr (.unary _ operand) => [expr operand]
  | expr (.binary left _ right) => [expr left, expr right]
  | expr (.logical left _ right) => [expr left, expr right]
  | expr (.cond condition consequence alternative) =>
      expr condition :: block consequence :: (alternative.map block).toList
  | expr (.call (.property object _) args) => expr object :: args.map expr
  | expr (.call callee args) => expr callee :: args.map expr
  | stmt (.letIn _ value) => [expr value]
  | stmt (.ret value) => [expr value]
  | stmt (.expr value) => [expr value]
  | stmt (.classDef _ superclass _) => (superclass.map meaning).toList
  | block statements => statements.map stmt
  | _ => []

theorem mem_children_of_cond {condition : Expr} {consequence : Block} {alternative : Option Block}
    {part : Part} {vs : List Value}
    (h : part ∈ (expr (.cond condition consequence alternative)).parts vs) :
    part ∈ (expr (.cond condition consequence alternative)).children := by
  cases vs with
  | nil => exact List.mem_singleton.mp h ▸ List.mem_cons_self
  | cons v vs =>
      rw [parts] at h
      rcases List.mem_cons.mp h with rfl | h
      · exact List.mem_cons_self
      · refine List.mem_cons_of_mem _ ?_
        split at h
        · exact List.mem_singleton.mp h ▸ List.mem_cons_self
        · exact List.mem_cons_of_mem _ h

theorem mem_children_of_logical {left right : Expr} {op : String} {part : Part} {vs : List Value}
    (h : part ∈ (expr (.logical left op right)).parts vs) :
    part ∈ (expr (.logical left op right)).children := by
  cases vs with
  | nil => exact List.mem_singleton.mp h ▸ List.mem_cons_self
  | cons v vs =>
      rw [parts] at h
      split at h
      · exact List.mem_singleton.mp h ▸ List.mem_cons_self
      · exact h

/-- The property of a value stands in no tree. -/
theorem property_notMem_children {node : Part} {target : Value} {name : String} :
    property target name ∉ node.children := by
  intro h
  cases node with
  | expr e =>
      cases e with
      | assign place value => cases place <;> simp [children] at h
      | call callee args => cases callee <;> simp [children] at h
      | _ => simp [children] at h
  | stmt s => cases s <;> simp [children] at h
  | _ => simp [children] at h

/-- A part of a node is one of its children or a property of a value that it was given. -/
theorem mem_children_or_property {node part : Part} {vs : List Value} (h : part ∈ node.parts vs) :
    part ∈ node.children ∨ ∃ target ∈ vs, ∃ name, part = property target name := by
  cases node with
  | expr e =>
      cases e with
      | assign target value => cases target <;> exact .inl h
      | logical left op right => exact .inl (mem_children_of_logical h)
      | cond condition consequence alternative => exact .inl (mem_children_of_cond h)
      | call callee args =>
          cases callee with
          | property object name =>
              cases vs with
              | nil => exact .inl (List.mem_singleton.mp h ▸ List.mem_cons_self)
              | cons v vs =>
                  rcases List.mem_cons.mp h with rfl | h
                  · exact .inl List.mem_cons_self
                  rcases List.mem_cons.mp h with rfl | h
                  · exact .inr ⟨v, List.mem_cons_self, name, rfl⟩
                  · exact .inl (List.mem_cons_of_mem _ h)
          | _ => exact .inl h
      | _ => exact .inl h
  | stmt s =>
      cases s with
      | ret value =>
          cases value with
          | missing => cases h
          | _ => exact .inl h
      | _ => exact .inl h
  | _ => exact .inl h

/-! ### The names that a node gives -/

/-- The names that a node gives. -/
def given : Part → List String
  | expr e => e.given
  | stmt s => s.given
  | block b => Block.given b
  | _ => []

theorem given_subset_of_args {part : Part} {args : List Expr} (h : part ∈ args.map expr) :
    part.given ⊆ Expr.givenIn args := by
  obtain ⟨e, he, rfl⟩ := List.mem_map.mp h
  exact Expr.given_subset_givenIn he

theorem given_subset_of_pair {part first second : Part} (h : part ∈ [first, second]) :
    part.given ⊆ first.given ++ second.given := by
  rcases List.mem_cons.mp h with rfl | h
  · exact List.subset_append_left _ _
  · rw [List.mem_singleton.mp h]
    exact List.subset_append_right _ _

theorem given_subset_of_single {part only : Part} (h : part ∈ [only]) : part.given ⊆ only.given :=
  List.mem_singleton.mp h ▸ List.Subset.refl _

theorem given_subset_cond {condition : Expr} {consequence : Block} {alternative : Option Block}
    {part : Part} (h : part ∈ (expr (.cond condition consequence alternative)).children) :
    part.given ⊆ (Expr.cond condition consequence alternative).given := by
  have hfirst (h : part ∈ [expr condition, block consequence]) :
      part.given ⊆ condition.given ++ Block.given consequence := given_subset_of_pair h
  cases alternative with
  | none => exact hfirst h
  | some alternative =>
      rcases List.mem_append.mp
        (show part ∈ [expr condition, block consequence] ++ [block alternative] from h) with h | h
      · exact List.subset_append_of_subset_left _ (hfirst h)
      · exact List.subset_append_of_subset_right _ (given_subset_of_single h)

theorem given_subset_expr {e : Expr} {part : Part} (h : part ∈ (expr e).children) :
    part.given ⊆ e.given := by
  have hcall {callee : Expr} {args : List Expr} (h : part ∈ expr callee :: args.map expr) :
      part.given ⊆ callee.given ++ Expr.givenIn args := by
    rcases List.mem_cons.mp h with rfl | h
    · exact List.subset_append_left _ _
    · exact List.subset_append_of_subset_right _ (given_subset_of_args h)
  cases e with
  | array elements => exact given_subset_of_args h
  | map pairs =>
      obtain ⟨pair, hpairs, h⟩ := List.mem_flatMap.mp h
      exact List.Subset.trans (given_subset_of_pair h) (Expr.given_subset_givenInPairs hpairs)
  | index target position => exact given_subset_of_pair h
  | property object name => exact List.subset_cons_of_subset _ (given_subset_of_single h)
  | assign target value =>
      rw [Expr.given_assign]
      cases target with
      | property object name =>
          rcases List.mem_cons.mp h with rfl | h
          · exact List.subset_append_right _ _
          · exact List.subset_append_of_subset_left _
              (List.subset_cons_of_subset _ (given_subset_of_single h))
      | _ => exact List.subset_append_of_subset_right _ (given_subset_of_single h)
  | new className args =>
      rcases List.mem_cons.mp h with rfl | h
      · exact List.nil_subset _
      · exact List.subset_cons_of_subset _ (given_subset_of_args h)
  | unary op operand => exact given_subset_of_single h
  | binary left op right => exact given_subset_of_pair h
  | logical left op right => exact given_subset_of_pair h
  | cond condition consequence alternative => exact given_subset_cond h
  | call callee args =>
      cases callee with
      | property object name =>
          exact List.Subset.trans (hcall h) (List.subset_cons_self _ _)
      | _ => exact hcall h
  | _ => cases h

/-- A node gives the names that its children give. -/
theorem given_subset {node part : Part} (h : part ∈ node.children) : part.given ⊆ node.given := by
  cases node with
  | expr e => exact given_subset_expr h
  | stmt s =>
      cases s with
      | letIn name value => exact List.subset_cons_of_subset _ (given_subset_of_single h)
      | ret value =>
          have hvalue : part.given ⊆ (expr value).given := given_subset_of_single h
          exact hvalue
      | expr value =>
          have hvalue : part.given ⊆ (expr value).given := given_subset_of_single h
          exact hvalue
      | classDef name superclass methods =>
          cases superclass with
          | none => cases h
          | some parent =>
              rw [List.mem_singleton.mp h]
              exact List.nil_subset _
  | block b =>
      obtain ⟨s, hs, rfl⟩ := List.mem_map.mp h
      exact Block.given_subset hs
  | meaning name => cases h
  | property target name => cases h

/-! ### Properties of all expressions in a node -/

/-- `p` holds of all expressions in a node, but for the one that a bare `return` lacks. -/
def Forall (p : Expr → Prop) : Part → Prop
  | expr e => e = .missing ∨ e.Forall p
  | stmt s => s.Forall p
  | block b => Block.Forall p b
  | _ => True

variable {p : Expr → Prop}

theorem forall_args {args : List Expr} (h : Expr.ForallIn p args) {part : Part}
    (hpart : part ∈ args.map expr) : part.Forall p := by
  obtain ⟨e, he, rfl⟩ := List.mem_map.mp hpart
  exact .inr (Expr.forall_of_mem h he)

theorem forall_pair {first second : Expr} (h : first.Forall p ∧ second.Forall p) {part : Part}
    (hpart : part ∈ [expr first, expr second]) : part.Forall p := by
  rcases List.mem_cons.mp hpart with rfl | hpart
  · exact .inr h.1
  · exact List.mem_singleton.mp hpart ▸ .inr h.2

theorem forall_cond {condition : Expr} {consequence : Block} {alternative : Option Block}
    (h : (Expr.cond condition consequence alternative).Forall p) {part : Part}
    (hpart : part ∈ (expr (.cond condition consequence alternative)).children) :
    part.Forall p := by
  have hfirst (hcondition : condition.Forall p) (hconsequence : Block.Forall p consequence)
      (hpart : part ∈ [expr condition, block consequence]) : part.Forall p := by
    rcases List.mem_cons.mp hpart with rfl | hpart
    · exact .inr hcondition
    · exact List.mem_singleton.mp hpart ▸ hconsequence
  cases alternative with
  | none =>
      rw [Expr.Forall] at h
      exact hfirst h.2.1 h.2.2 hpart
  | some alternative =>
      rw [Expr.Forall] at h
      rcases List.mem_append.mp (show part ∈ [expr condition, block consequence] ++
        [block alternative] from hpart) with hpart | hpart
      · exact hfirst h.2.1 h.2.2.1 hpart
      · exact List.mem_singleton.mp hpart ▸ h.2.2.2

theorem forall_of_mem_expr {e : Expr} (h : e.Forall p) {part : Part}
    (hpart : part ∈ (expr e).children) : part.Forall p := by
  cases e with
  | array elements =>
      rw [Expr.Forall] at h
      exact forall_args h.2 hpart
  | map pairs =>
      rw [Expr.Forall] at h
      obtain ⟨pair, hpairs, hpart⟩ := List.mem_flatMap.mp hpart
      exact forall_pair (Expr.forall_of_mem_pairs h.2 hpairs) hpart
  | index target position =>
      rw [Expr.Forall] at h
      exact forall_pair h.2 hpart
  | property object name =>
      rw [Expr.Forall] at h
      exact List.mem_singleton.mp hpart ▸ .inr h.2
  | assign target value =>
      rw [Expr.Forall] at h
      cases target with
      | property object name =>
          have htarget := h.2.1
          rw [Expr.Forall] at htarget
          exact forall_pair ⟨h.2.2, htarget.2⟩ hpart
      | _ => exact List.mem_singleton.mp hpart ▸ .inr h.2.2
  | new className args =>
      rw [Expr.Forall] at h
      rcases List.mem_cons.mp hpart with rfl | hpart
      · trivial
      · exact forall_args h.2 hpart
  | unary op operand =>
      rw [Expr.Forall] at h
      exact List.mem_singleton.mp hpart ▸ .inr h.2
  | binary left op right =>
      rw [Expr.Forall] at h
      exact forall_pair h.2 hpart
  | logical left op right =>
      rw [Expr.Forall] at h
      exact forall_pair h.2 hpart
  | cond condition consequence alternative => exact forall_cond h hpart
  | call callee args =>
      rw [Expr.Forall] at h
      cases callee with
      | property object name =>
          have hcallee := h.2.1
          rw [Expr.Forall] at hcallee
          rcases List.mem_cons.mp hpart with rfl | hpart
          · exact .inr hcallee.2
          · exact forall_args h.2.2 hpart
      | _ =>
          rcases List.mem_cons.mp hpart with rfl | hpart
          · exact .inr h.2.1
          · exact forall_args h.2.2 hpart
  | _ => cases hpart

/-- What holds of all expressions in a node holds of those in its children. -/
theorem forall_of_mem_children {node part : Part} (h : node.Forall p)
    (hpart : part ∈ node.children) : part.Forall p := by
  cases node with
  | expr e =>
      rcases h with rfl | h
      · cases hpart
      · exact forall_of_mem_expr h hpart
  | stmt s =>
      cases s with
      | letIn name value => exact List.mem_singleton.mp hpart ▸ .inr h
      | ret value =>
          rw [List.mem_singleton.mp hpart]
          by_cases hmissing : value = .missing
          · exact .inl hmissing
          · exact .inr ((Stmt.forall_ret hmissing).mp h)
      | expr value => exact List.mem_singleton.mp hpart ▸ .inr h
      | classDef name superclass methods =>
          cases superclass with
          | none => cases hpart
          | some parent => exact List.mem_singleton.mp hpart ▸ trivial
  | block b =>
      obtain ⟨s, hs, rfl⟩ := List.mem_map.mp hpart
      exact Block.forall_of_mem h hs
  | _ => cases hpart

end Part

end Scripting
