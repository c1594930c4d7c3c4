import Scripting.Proofs.Reading.Atoms
import Scripting.Proofs.Run.Nodes
import Scripting.Proofs.Token.Word

/-!
# Names of a program

The names in the tree of a text that is read without faults were written as names, so none of them
is a reserved word but `print`. The atoms of a node are among those of the tree, and these are the
atoms of the tokens.
-/

namespace Scripting

namespace Part

/-- The atoms of a node. -/
def atoms : Part → List Atom
  | expr e => e.atoms
  | stmt s => s.atoms
  | block b => Block.atoms b
  | meaning name => [.name name]
  | property _ _ => []

end Part

/-! ### The atoms of a node are those of the tree -/

theorem Part.atoms_subset_append {n : Part} {ns ms : List Part} {as bs : List Atom}
    (h : n ∈ ns ++ ms) (hleft : n ∈ ns → n.atoms ⊆ as) (hright : n ∈ ms → n.atoms ⊆ bs) :
    n.atoms ⊆ as ++ bs := by
  rcases List.mem_append.mp h with h | h
  · exact List.Subset.trans (hleft h) (List.subset_append_left _ _)
  · exact List.Subset.trans (hright h) (List.subset_append_right _ _)

theorem Block.atoms_subset_of_nodesIn {n : Part} {b : Block}
    (hin : n ∈ Block.nodesIn b → n.atoms ⊆ Block.atoms b) (h : n ∈ Block.nodes b) :
    n.atoms ⊆ Block.atoms b := by
  rcases List.mem_cons.mp h with rfl | h
  · exact List.Subset.refl _
  · exact hin h

theorem Expr.mem_nodes_of_assign {n : Part} {target value : Expr}
    (h : n ∈ (Expr.assign target value).nodes.tail) : n ∈ target.nodes ∨ n ∈ value.nodes := by
  cases target with
  | property object name =>
      rcases List.mem_append.mp h with h | h
      · exact .inr h
      · exact .inl (List.mem_cons_of_mem _ h)
  | _ => exact .inr h

theorem Expr.mem_nodes_of_call {n : Part} {callee : Expr} {args : List Expr}
    (h : n ∈ (Expr.call callee args).nodes.tail) :
    n ∈ callee.nodes ∨ n ∈ Expr.nodesIn args := by
  cases callee with
  | property object name =>
      exact (List.mem_append.mp h).imp (List.mem_cons_of_mem _) id
  | _ => exact List.mem_append.mp h

mutual

theorem Expr.atoms_subset {n : Part} (e : Expr) (h : n ∈ e.nodes) : n.atoms ⊆ e.atoms := by
  rw [Part.nodes_expr] at h
  rcases List.mem_cons.mp h with rfl | h
  · exact List.Subset.refl _
  match e, h with
  | .array elements, h => exact Expr.atomsIn_subset elements h
  | .map pairs, h => exact Expr.atomsInPairs_subset pairs h
  | .index target position, h =>
      exact Part.atoms_subset_append h target.atoms_subset position.atoms_subset
  | .property object name, h =>
      exact List.Subset.trans (object.atoms_subset h) (List.subset_append_left _ _)
  | .assign target value, h =>
      rcases Expr.mem_nodes_of_assign h with h | h
      · exact List.Subset.trans (target.atoms_subset h) (List.subset_append_left _ _)
      · exact List.Subset.trans (value.atoms_subset h) (List.subset_append_right _ _)
  | .new className args, h =>
      rcases List.mem_cons.mp h with rfl | h
      · exact List.subset_append_left [_] _
      · exact List.subset_cons_of_subset _ (Expr.atomsIn_subset args h)
  | .unary op operand, h => exact List.subset_cons_of_subset _ (operand.atoms_subset h)
  | .binary left op right, h | .logical left op right, h =>
      exact Part.atoms_subset_append h left.atoms_subset fun h =>
        List.subset_cons_of_subset _ (right.atoms_subset h)
  | .cond condition consequence none, h =>
      exact Part.atoms_subset_append h condition.atoms_subset
        (Block.atoms_subset_of_nodesIn (Block.atomsIn_subset consequence))
  | .cond condition consequence (some alternative), h =>
      exact Part.atoms_subset_append h
        (fun h => Part.atoms_subset_append h condition.atoms_subset
          (Block.atoms_subset_of_nodesIn (Block.atomsIn_subset consequence)))
        (Block.atoms_subset_of_nodesIn (Block.atomsIn_subset alternative))
  | .function literal, h => exact literal.atoms_subset h
  | .call callee args, h =>
      rcases Expr.mem_nodes_of_call h with h | h
      · exact List.Subset.trans (callee.atoms_subset h) (List.subset_append_left _ _)
      · exact List.Subset.trans (Expr.atomsIn_subset args h) (List.subset_append_right _ _)

theorem Expr.atomsIn_subset {n : Part} (es : List Expr) (h : n ∈ Expr.nodesIn es) :
    n.atoms ⊆ Expr.atomsIn es := by
  match es with
  | [] => cases h
  | e :: rest => exact Part.atoms_subset_append h e.atoms_subset (Expr.atomsIn_subset rest)

theorem Expr.atomsInPairs_subset {n : Part} (pairs : List (Expr × Expr))
    (h : n ∈ Expr.nodesInPairs pairs) : n.atoms ⊆ Expr.atomsInPairs pairs := by
  match pairs with
  | [] => cases h
  | (key, value) :: rest =>
      exact Part.atoms_subset_append h
        (fun h => Part.atoms_subset_append h key.atoms_subset value.atoms_subset)
        (Expr.atomsInPairs_subset rest)

theorem Stmt.atoms_subset {n : Part} (s : Stmt) (h : n ∈ s.nodes) : n.atoms ⊆ s.atoms := by
  rw [Part.nodes_stmt] at h
  rcases List.mem_cons.mp h with rfl | h
  · exact List.Subset.refl _
  match s, h with
  | .letIn name value, h => exact List.subset_cons_of_subset _ (value.atoms_subset h)
  | .ret value, h => exact value.atoms_subset h
  | .expr value, h => exact value.atoms_subset h
  | .classDef name superclass methods, h =>
      refine List.subset_cons_of_subset _ (Part.atoms_subset_append h (fun h => ?_)
        (FunctionLiteral.atomsIn_subset methods))
      cases superclass with
      | none => cases h
      | some parent =>
          rw [List.mem_singleton.mp h]
          exact List.Subset.refl _

theorem Block.atomsIn_subset {n : Part} (b : List Stmt) (h : n ∈ Block.nodesIn b) :
    n.atoms ⊆ Block.atoms b := by
  match b with
  | [] => cases h
  | s :: rest => exact Part.atoms_subset_append h s.atoms_subset (Block.atomsIn_subset rest)

theorem FunctionLiteral.atoms_subset {n : Part} (literal : FunctionLiteral)
    (h : n ∈ literal.nodes) : n.atoms ⊆ literal.atoms := by
  match literal with
  | .mk params body =>
      exact List.Subset.trans (Block.atoms_subset_of_nodesIn (Block.atomsIn_subset body) h)
        (List.subset_append_right _ _)

theorem FunctionLiteral.atomsIn_subset {n : Part} (methods : List (String × FunctionLiteral))
    (h : n ∈ FunctionLiteral.nodesIn methods) : n.atoms ⊆ FunctionLiteral.atomsIn methods := by
  match methods with
  | [] => cases h
  | (name, method) :: rest =>
      exact List.subset_cons_of_subset _ (Part.atoms_subset_append h method.atoms_subset
        (FunctionLiteral.atomsIn_subset rest))

end

theorem Block.atoms_subset {n : Part} {b : Block} (h : n ∈ Block.nodes b) :
    n.atoms ⊆ Block.atoms b :=
  Block.atoms_subset_of_nodesIn (Block.atomsIn_subset b) h

/-! ### The names of a faultless reading -/

theorem Token.isName_of_atom? {t : Token} {name : String} (h : t.atom? = some (.name name)) :
    t.IsName ∧ t.literal = name := by
  unfold atom? at h
  split at h <;> cases h
  · next hk => exact ⟨.inl hk, rfl⟩
  · next hk => exact ⟨.inr hk, rfl⟩

/-- The names among the atoms of any node of a faultless reading are words that can stand as
names. -/
theorem Reading.isNameWord {ts : List Token} (h : (Reading.ofTokens ts).errors = [])
    (hts : NameWords ts) {n : Part} (hn : n ∈ Block.nodes (Reading.ofTokens ts).program)
    {name : String} (hname : .name name ∈ n.atoms) : IsNameWord name := by
  obtain ⟨rest, hspelled⟩ := Reading.program_spelled h
  have hatoms : atomsOf ts = Block.atoms (Reading.ofTokens ts).program ++ atomsOf rest :=
    hspelled.atoms_eq
  have hmem : .name name ∈ atomsOf ts := by
    rw [hatoms]
    exact List.mem_append_left _ (Block.atoms_subset hn hname)
  obtain ⟨t, ht, hatom⟩ := List.mem_filterMap.mp hmem
  obtain ⟨hkind, rfl⟩ := Token.isName_of_atom? hatom
  exact hts t ht hkind

end Scripting
