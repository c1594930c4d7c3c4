import Scripting.Proofs.Run.Nodes

/-!
# Judgments along the tree

What is said of the evaluation of a node is mostly shown in one way: each of its parts is right in
the situation that the parts before it lead to, and so is its last step. A `Judgment` is a statement
about computations for which this works: it has a rule for a part and what uses its value, and it
has to be shown of last steps alone. `Judgment.judged_eval` is the induction along the tree.
-/

namespace Scripting

namespace Part

open Eval

/-- A judgment on the evaluation of nodes in a scope. A situation, which is a state or says more than
a state does, tells which nodes may be evaluated in it and which values are good in it. Judged on
behalf of a node, a computation leads only to situations that count as later for this node. -/
structure Judgment (options : Options) (run : RunBody) (scope : Nat) (σ : Type) where
  Judged : Part → σ → Eval Value → Prop
  Later : Part → σ → σ → Prop
  Admitted : σ → Part → Prop
  Good : σ → Value → Prop
  trans : ∀ {node a b c}, Later node a b → Later node b c → Later node a c
  stay : ∀ {node a b}, Later node a b → Later node b b
  start : ∀ {node a}, Admitted a node → Later node a a
  admitted : ∀ {node a b}, Admitted a node → Later node a b → Admitted b node
  good : ∀ {node a b v}, Later node a b → Good a v → Good b v
  /-- A part and what uses its value. -/
  onValue : ∀ {node a x} {f : Value → Eval Value}, Judged node a x →
    (∀ v b, Later node a b → Good b v → Judged node b (f v)) → Judged node a (x.onValue f)
  part_admitted : ∀ {node part a vs}, Admitted a node → (∀ v ∈ vs, Good a v) →
    part ∈ node.parts vs → Admitted a part
  part_judged : ∀ {node part a vs x}, part ∈ node.parts vs → Judged part a x → Judged node a x
  finish : ∀ {node a vs}, Admitted a node → (∀ v ∈ vs, Good a v) →
    vs.length = (node.parts vs).length → Judged node a (node.finish options run scope vs)

namespace Judgment

variable {options : Options} {run : RunBody} {scope : Nat} {σ : Type}
  (J : Judgment options run scope σ)

/-- Parts from left to right are judged right where each of them is and what is done with their
values is. -/
theorem judged_evalAll {node : Part} (parts : List Part) :
    ∀ {a : σ} {f : List Value → Eval Value}, J.Later node a a →
      (∀ part ∈ parts, ∀ b, J.Later node a b →
        J.Judged node b (part.eval options run scope)) →
      (∀ vs b, J.Later node a b → vs.length = parts.length → (∀ v ∈ vs, J.Good b v) →
        J.Judged node b (f vs)) →
      J.Judged node a ((evalAll options run scope parts).onGathered f) := by
  induction parts with
  | nil =>
      intro a f ha _ hf
      rw [onGathered_evalAll_nil]
      exact hf [] a ha rfl fun _ hv => nomatch hv
  | cons part rest ih =>
      intro a f ha hparts hf
      rw [onGathered_evalAll_cons]
      refine J.onValue (hparts part List.mem_cons_self a ha) fun v b hb hv => ?_
      refine ih (J.stay hb) ?_ ?_
      · exact fun p hp c hc => hparts p (List.mem_cons_of_mem _ hp) c (J.trans hb hc)
      · intro vs c hc hlength hvs
        refine hf (v :: vs) c (J.trans hb hc) (congrArg Nat.succ hlength) ?_
        exact List.forall_mem_cons.mpr ⟨J.good hc hv, hvs⟩

/-- The evaluation of every admitted node is judged right. -/
theorem judged_eval {node : Part} {a : σ} (hnode : J.Admitted a node) :
    J.Judged node a (node.eval options run scope) := by
  -- The parts of a node have fewer nodes. What a call runs is no part: `finish` covers it.
  induction hsize : node.nodes.length using Nat.strongRecOn generalizing node a with
  | ind n ih =>
      subst hsize
      have hparts {vs : List Value} {b : σ} (hb : J.Later node a b) (hvs : ∀ v ∈ vs, J.Good b v)
          (part : Part) (hpart : part ∈ node.parts vs) :
          J.Judged node b (part.eval options run scope) := by
        have hadmitted : J.Admitted b part := J.part_admitted (J.admitted hnode hb) hvs hpart
        exact J.part_judged hpart (ih _ (length_nodes_lt hpart) hadmitted rfl)
      have hnone : ∀ v ∈ ([] : List Value), J.Good a v := fun _ hv => nomatch hv
      rw [Part.eval_eq, Part.evalInOrder]
      cases hfirst : node.parts [] with
      | nil => exact J.finish hnode hnone (congrArg List.length hfirst.symm)
      | cons first rest =>
          have hmem : first ∈ node.parts [] := hfirst ▸ List.mem_cons_self
          refine J.onValue (hparts (J.start hnode) hnone first hmem) fun v b hb hv => ?_
          refine J.judged_evalAll _ (J.stay hb) ?_ ?_
          · intro part hpart c hc
            have hv' : ∀ w ∈ [v], J.Good c w := fun w hw => List.mem_singleton.mp hw ▸ J.good hc hv
            exact hparts (J.trans hb hc) hv' part (List.mem_of_mem_tail hpart)
          · intro vs c hc hlength hvs
            exact J.finish (J.admitted hnode (J.trans hb hc))
              (List.forall_mem_cons.mpr ⟨J.good hc hv, hvs⟩) (length_eq_of_tail hfirst hlength)

end Judgment

end Part

end Scripting
