import Mathlib.Data.List.Basic
import Scripting.Proofs.Run.Calls
import Scripting.Proofs.Run.Part

/-!
# Nodes in two runs

Where two runs have the same values but for the numbers in them, a node has the same parts in both
(`Part.parts_rename`), and what it does last with the values of its parts differs in the numbers
only. `Relates` is a relation of computations that holds of giving values, making lists and maps and
printing, and `Relates.Finishes` asks it of all that a node may do to the state besides. The last
steps of the node are related then (`Relates.Finishes.finish`): this is the case analysis over all
nodes, and comparisons of runs are shown for the single steps only.
-/

namespace Scripting

/-- Expressions that are evaluated without any part. -/
def Expr.IsLeaf : Expr → Prop
  | .missing | .ident _ | .int _ _ | .str _ | .bool _ | .null | .this | .super | .function _ => True
  | _ => False

namespace Part

/-- A part with the identities in it renamed. -/
def rename (ρ : Renaming) : Part → Part
  | property target name => property (target.rename ρ) name
  | node => node

/-- The parts of a node are known from what does not depend on identities. -/
theorem parts_rename (ρ : Renaming) (node : Part) (vs : List Value) :
    (node.rename ρ).parts (vs.map (Value.rename ρ)) = (node.parts vs).map (Part.rename ρ) := by
  have hargs (args : List Expr) : (args.map expr).map (Part.rename ρ) = args.map expr := by
    simp [Part.rename]
  cases node with
  | expr e =>
      cases e with
      | array elements => exact (hargs elements).symm
      | map pairs => simp [Part.rename, parts, List.map_flatMap]
      | assign target value => cases target <;> rfl
      | new className args => exact congrArg (meaning className :: ·) (hargs args).symm
      | logical left op right =>
          cases vs with
          | nil => rfl
          | cons v vs =>
              have hdecides : (v.rename ρ).Decides op ↔ v.Decides op := by
                simp only [Value.Decides, Value.isTruthy_rename]
              simp only [Part.rename, List.map_cons, parts, hdecides]
              split <;> rfl
      | cond condition consequence alternative =>
          cases vs with
          | nil => rfl
          | cons v vs =>
              simp only [Part.rename, List.map_cons, parts, Value.isTruthy_rename]
              split
              · rfl
              · cases alternative <;> rfl
      | call callee args =>
          cases callee with
          | property object name =>
              cases vs with
              | nil => rfl
              | cons v vs =>
                  exact congrArg (expr object :: property (v.rename ρ) name :: ·) (hargs args).symm
          | _ => exact congrArg (expr _ :: ·) (hargs args).symm
      | _ => rfl
  | stmt s =>
      cases s with
      | ret value => cases value <;> rfl
      | classDef name superclass methods => cases superclass <;> rfl
      | _ => rfl
  | block b =>
      change b.map stmt = (b.map stmt).map (Part.rename ρ)
      simp [Part.rename]
  | _ => rfl

/-- Only a call comes to a property, that of its first value. -/
theorem of_property_mem {node : Part} {vs : List Value} {target : Value} {name : String}
    (h : property target name ∈ node.parts vs) :
    vs.head? = some target ∧ ∃ object args, node = expr (.call (.property object name) args) := by
  cases node with
  | expr e =>
      cases e with
      | assign target value => cases target <;> simp [parts] at h
      | logical left op right =>
          cases vs with
          | nil => simp [parts] at h
          | cons v vs =>
              rw [parts] at h
              split at h <;> simp at h
      | cond condition consequence alternative =>
          cases vs with
          | nil => simp [parts] at h
          | cons v vs =>
              rw [parts] at h
              split at h <;> simp at h
      | call callee args =>
          cases callee with
          | property object name =>
              cases vs with
              | nil => simp [parts] at h
              | cons v vs =>
                  obtain ⟨rfl, rfl⟩ : target = v ∧ _ := by simpa [parts] using h
                  exact ⟨rfl, object, args, rfl⟩
          | _ => simp [parts] at h
      | _ => simp [parts] at h
  | stmt s =>
      cases s with
      | ret value => cases value <;> simp [parts] at h
      | _ => simp [parts] at h
  | _ => simp [parts] at h

/-- Whether a part stands in the tree, which the property of a value does not. -/
def InTree : Part → Prop
  | property _ _ => False
  | _ => True

theorem InTree.rename {part : Part} (h : part.InTree) (ρ : Renaming) : part.rename ρ = part := by
  cases part with
  | property => exact absurd h id
  | _ => rfl

/-- A node whose parts all stand in the tree comes to the same parts whatever the identities are. -/
theorem InTree.parts_rename {node : Part} (h : node.InTree) (vs : List Value)
    (hparts : ∀ part ∈ node.parts vs, part.InTree) (ρ : Renaming) :
    node.parts (vs.map (Value.rename ρ)) = node.parts vs := by
  have hrenamed := Part.parts_rename ρ node vs
  rw [h.rename ρ] at hrenamed
  rw [hrenamed, List.map_congr_left fun part hpart => (hparts part hpart).rename ρ, List.map_id']

theorem inPairs_rename (ρ : Renaming) :
    ∀ vs : List Value, inPairs (vs.map (Value.rename ρ)) =
      (inPairs vs).map fun pair => (pair.1.rename ρ, pair.2.rename ρ)
  | [] => rfl
  | [_] => rfl
  | key :: value :: rest => by
      simp only [List.map_cons, inPairs]
      rw [inPairs_rename ρ rest]

end Part

/-! ### Related computations -/

/-- A relation of computations of two runs, which holds of computations with known values and the
same ones with their counterparts. -/
structure Relates (ρ : Renaming) (Knows : Value → Prop) (R : Eval Value → Eval Value → Prop) :
    Prop where
  plain : ∀ {v : Value}, v.IsPlain → Knows v
  element : ∀ {i : Nat} {elements : List Value} {v : Value}, Knows (.array i elements) →
    v ∈ elements → Knows v
  index : ∀ {v : Value} (position : Value), Knows v → Knows (v.index position)
  returned : ∀ {v : Value}, Knows v → Knows (.returned v)
  given : ∀ {v : Value}, Knows v → R (pure v) (pure (v.rename ρ))
  newArray : ∀ {vs : List Value}, (∀ v ∈ vs, Knows v) →
    R (Eval.newArray vs) (Eval.newArray (vs.map (Value.rename ρ)))
  newHash : ∀ {pairs : List (Value × Value)},
    (∀ pair ∈ pairs, Knows pair.1 ∧ Knows pair.2) →
      R (Eval.newHash pairs)
        (Eval.newHash (pairs.map fun pair => (pair.1.rename ρ, pair.2.rename ρ)))
  print : ∀ args : List Value,
    R (Builtin.print.call args) (Builtin.print.call (args.map (Value.rename ρ)))

namespace Relates

variable {ρ : Renaming} {Knows : Value → Prop} {R : Eval Value → Eval Value → Prop}
  (h : Relates ρ Knows R)
include h

theorem ofPlain {v : Value} (hv : v.IsPlain) : R (pure v) (pure v) := by
  have hgiven := h.given (h.plain hv)
  rw [Value.rename_of_isPlain ρ hv] at hgiven
  exact hgiven

theorem fail (error : RuntimeError) : R (Eval.fail error) (Eval.fail error) :=
  h.ofPlain trivial

theorem len (args : List Value) :
    R (Builtin.len.call args) (Builtin.len.call (args.map (Value.rename ρ))) := by
  by_cases hlength : args.length = 1
  · obtain ⟨v, rfl⟩ := List.length_eq_one_iff.mp hlength
    cases v with
    | array i elements =>
        rw [List.map_singleton, Value.rename_array]
        simp only [Builtin.call, List.length_map]
        exact h.ofPlain trivial
    | string s => exact h.ofPlain trivial
    | _ => exact h.fail _
  · have hlength' : (args.map (Value.rename ρ)).length ≠ 1 := by rwa [List.length_map]
    rw [Builtin.call_len_of_length_ne hlength, Builtin.call_len_of_length_ne hlength',
      List.length_map]
    exact h.fail _

theorem push {args : List Value} (hargs : ∀ v ∈ args, Knows v) :
    R (Builtin.push.call args) (Builtin.push.call (args.map (Value.rename ρ))) := by
  by_cases hlength : args.length = 2
  · obtain ⟨v, w, rfl⟩ := List.length_eq_two.mp hlength
    cases v with
    | array i elements =>
        have hall : ∀ u ∈ elements ++ [w], Knows u := by
          intro u hu
          rcases List.mem_append.mp hu with hu | hu
          · exact h.element (hargs _ List.mem_cons_self) hu
          · exact hargs u (List.mem_cons_of_mem _ hu)
        have hnew := h.newArray hall
        rw [List.map_append, List.map_singleton] at hnew
        rw [List.map_cons, List.map_singleton, Value.rename_array]
        exact hnew
    | _ => exact h.fail _
  · have hlength' : (args.map (Value.rename ρ)).length ≠ 2 := by rwa [List.length_map]
    rw [Builtin.call_push_of_length_ne hlength, Builtin.call_push_of_length_ne hlength',
      List.length_map]
    exact h.fail _

theorem builtin (b : Builtin) {args : List Value} (hargs : ∀ v ∈ args, Knows v) :
    R (b.call args) (b.call (args.map (Value.rename ρ))) := by
  cases b with
  | print => exact h.print args
  | len => exact h.len args
  | push => exact h.push hargs

/-- The last of known values is known, and its counterpart is the last of theirs. -/
theorem last {vs : List Value} (hvs : ∀ v ∈ vs, Knows v) :
    Knows (vs.getLast?.getD .null) ∧
      (vs.map (Value.rename ρ)).getLast?.getD .null = (vs.getLast?.getD .null).rename ρ := by
  rw [List.getLast?_map]
  cases hlast : vs.getLast? with
  | none => exact ⟨h.plain trivial, rfl⟩
  | some v => exact ⟨hvs v (List.mem_of_getLast? hlast), rfl⟩

omit h

/-- The steps of a node that read or change the state are related, each in those nodes that take
it. -/
structure Finishes (left right : Options) (run run' : RunBody) (ρ : Renaming)
    (Knows : Value → Prop) (R : Eval Value → Eval Value → Prop) (scope : Nat) (node : Part) : Prop
    extends Relates ρ Knows R where
  leaf : ∀ {e : Expr}, node = .expr e → e.IsLeaf →
    R (e.eval left run scope) (e.eval right run' (ρ.scope scope))
  readName : ∀ {name : String}, node = .meaning name →
    R (readName scope name) (readName (ρ.scope scope) name)
  readProperty : ∀ {target : Value} {name : String}, Knows target →
    node = .property target name ∨ (∃ object, node = .expr (.property object name)) →
      R (readProperty left scope target name)
        (readProperty right (ρ.scope scope) (target.rename ρ) name)
  assignTo : ∀ {name : String} {value : Expr} {v : Value},
    node = .expr (.assign (.ident name) value) → Knows v →
      R (assignTo left scope name v) (assignTo right (ρ.scope scope) name (v.rename ρ))
  assignProperty : ∀ {target v : Value} (name : String), Knows v →
    R (assignProperty target name v) (assignProperty (target.rename ρ) name (v.rename ρ))
  makeObject : ∀ {callee : Value} {args : List Value}, Knows callee → (∀ v ∈ args, Knows v) →
    R (makeObject left run callee args)
      (makeObject right run' (callee.rename ρ) (args.map (Value.rename ρ)))
  callValue : ∀ {callee : Value} {args : List Value} {receiver : Option Object}, Knows callee →
    (∀ v ∈ args, Knows v) → (∀ o, receiver = some o → Knows (.object o)) →
      R (callValue left run callee args receiver)
        (callValue right run' (callee.rename ρ) (args.map (Value.rename ρ))
          (receiver.map (Object.rename ρ)))
  bind : ∀ {v : Value} (name : String), Knows v →
    R (do
        Eval.bindName scope name v
        pure .null)
      (do
        Eval.bindName (ρ.scope scope) name (v.rename ρ)
        pure .null)
  finishClass : ∀ {name : String} {superclass : Option String}
    {methods : List (String × FunctionLiteral)} {vs : List Value},
      node = .stmt (.classDef name superclass methods) → (∀ v ∈ vs, Knows v) →
        vs.length = superclass.toList.length →
          R (Part.finishClass scope name methods vs)
            (Part.finishClass (ρ.scope scope) name methods (vs.map (Value.rename ρ)))

namespace Finishes

variable {left right : Options} {run run' : RunBody} {scope : Nat} {node : Part}

theorem finishAssign {target value : Expr}
    (h : Finishes left right run run' ρ Knows R scope (.expr (.assign target value)))
    {vs : List Value} (hvs : ∀ v ∈ vs, Knows v) :
    R (Part.finishAssign left scope target vs)
      (Part.finishAssign right (ρ.scope scope) target (vs.map (Value.rename ρ))) := by
  cases target with
  | ident name =>
      match vs, hvs with
      | [v], hvs => exact h.assignTo rfl (hvs v List.mem_cons_self)
      | [], _ | _ :: _ :: _, _ => exact h.fail _
  | property object name =>
      match vs, hvs with
      | [v, o], hvs => exact h.assignProperty name (hvs v List.mem_cons_self)
      | [], _ | [_], _ | _ :: _ :: _ :: _, _ => exact h.fail _
  | _ => exact h.fail _

theorem finish_stmt {s : Stmt} (h : Finishes left right run run' ρ Knows R scope (.stmt s))
    {vs : List Value} (hvs : ∀ v ∈ vs, Knows v)
    (hlength : vs.length = ((Part.stmt s).parts vs).length) :
    R ((Part.stmt s).finish left run scope vs)
      ((Part.stmt s).finish right run' (ρ.scope scope) (vs.map (Value.rename ρ))) := by
  cases s with
  | letIn name value =>
      obtain ⟨v, rfl⟩ := List.length_eq_one_iff.mp hlength
      exact h.bind name (hvs v List.mem_cons_self)
  | ret value =>
      obtain ⟨hlast, heq⟩ := h.last hvs
      have hgiven := h.given (h.returned hlast)
      rw [Value.rename, ← heq] at hgiven
      exact hgiven
  | expr value =>
      obtain ⟨v, rfl⟩ := List.length_eq_one_iff.mp hlength
      exact h.given (hvs v List.mem_cons_self)
  | classDef name superclass methods =>
      refine h.finishClass rfl hvs ?_
      rw [hlength]
      cases superclass <;> rfl

theorem finish_cond {condition : Expr} {consequence : Block} {alternative : Option Block}
    (h : Finishes left right run run' ρ Knows R scope
      (.expr (.cond condition consequence alternative)))
    {vs : List Value} (hvs : ∀ v ∈ vs, Knows v)
    (hlength : vs.length =
      ((Part.expr (.cond condition consequence alternative)).parts vs).length) :
    R ((Part.expr (.cond condition consequence alternative)).finish left run scope vs)
      ((Part.expr (.cond condition consequence alternative)).finish right run' (ρ.scope scope)
        (vs.map (Value.rename ρ))) := by
  match vs, hvs, hlength with
  | [], _, hlength => cases hlength
  | [v], _, _ => exact h.ofPlain trivial
  | [v, branch], hvs, _ => exact h.given (hvs branch (List.mem_cons_of_mem _ List.mem_cons_self))
  | v :: w :: u :: rest, _, hlength =>
      rw [Part.parts] at hlength
      split at hlength
      · cases hlength
      · cases alternative <;> cases hlength

theorem finish_call {callee : Expr} {args : List Expr}
    (h : Finishes left right run run' ρ Knows R scope (.expr (.call callee args)))
    {vs : List Value} (hvs : ∀ v ∈ vs, Knows v)
    (hlength : vs.length = ((Part.expr (.call callee args)).parts vs).length) :
    R ((Part.expr (.call callee args)).finish left run scope vs)
      ((Part.expr (.call callee args)).finish right run' (ρ.scope scope)
        (vs.map (Value.rename ρ))) := by
  cases vs with
  | nil => cases callee <;> cases hlength
  | cons first vs =>
      have hfirst := hvs first List.mem_cons_self
      have hrest : ∀ v ∈ vs, Knows v := fun v hv => hvs v (List.mem_cons_of_mem _ hv)
      cases callee with
      | property object name =>
          cases vs with
          | nil => cases hlength
          | cons function vs =>
              have hreceiver : ∀ o, first.object? = some o → Knows (.object o) := by
                intro o ho
                cases first with
                | object o' => exact Option.some.inj ho ▸ hfirst
                | _ => cases ho
              have hcall := h.callValue (hrest function List.mem_cons_self)
                (fun v hv => hrest v (List.mem_cons_of_mem _ hv)) hreceiver
              rw [← Value.object?_rename] at hcall
              exact hcall
      | _ =>
          have hreceiver : ∀ o, (none : Option Object) = some o → Knows (.object o) := by
            rintro _ ⟨⟩
          exact h.callValue hfirst hrest hreceiver

theorem finish_expr {e : Expr} (h : Finishes left right run run' ρ Knows R scope (.expr e))
    {vs : List Value} (hvs : ∀ v ∈ vs, Knows v)
    (hlength : vs.length = ((Part.expr e).parts vs).length) :
    R ((Part.expr e).finish left run scope vs)
      ((Part.expr e).finish right run' (ρ.scope scope) (vs.map (Value.rename ρ))) := by
  cases e with
  | array elements => exact h.newArray hvs
  | map pairs =>
      have hnew := h.newHash fun pair hpair =>
        have hmem := Part.mem_of_mem_inPairs hpair
        ⟨hvs _ hmem.1, hvs _ hmem.2⟩
      rw [← Part.inPairs_rename] at hnew
      exact hnew
  | index target position =>
      obtain ⟨v, w, rfl⟩ := List.length_eq_two.mp hlength
      have hgiven := h.given (h.index w (hvs v List.mem_cons_self))
      rw [← Value.index_rename] at hgiven
      exact hgiven
  | property object name =>
      obtain ⟨v, rfl⟩ := List.length_eq_one_iff.mp hlength
      exact h.readProperty (hvs v List.mem_cons_self) (.inr ⟨object, rfl⟩)
  | assign target value => exact h.finishAssign hvs
  | new className args =>
      cases vs with
      | nil => cases hlength
      | cons callee vs =>
          exact h.makeObject (hvs callee List.mem_cons_self) fun v hv =>
            hvs v (List.mem_cons_of_mem _ hv)
  | unary op operand =>
      obtain ⟨v, rfl⟩ := List.length_eq_one_iff.mp hlength
      simp only [List.map_singleton, Part.finish]
      rw [Value.unary_rename]
      exact h.ofPlain (Value.isPlain_unary op v)
  | binary first op second =>
      obtain ⟨v, w, rfl⟩ := List.length_eq_two.mp hlength
      simp only [List.map_cons, List.map_nil, Part.finish]
      rw [Value.binary_rename]
      exact h.ofPlain (Value.isPlain_binary v op w)
  | logical first op second =>
      simp only [Part.finish]
      rw [(h.last hvs).2, Value.isTruthy_rename]
      exact h.ofPlain trivial
  | cond condition consequence alternative => exact h.finish_cond hvs hlength
  | call callee args => exact h.finish_call hvs hlength
  | _ =>
      obtain rfl := List.length_eq_zero_iff.mp hlength
      change R (Expr.eval left run scope _) (Expr.eval right run' (ρ.scope scope) _)
      exact h.leaf rfl trivial

/-- The last steps of a node are related if those that read or change the state are. -/
theorem finish (h : Finishes left right run run' ρ Knows R scope node)
    (hnode : ∀ target name, node = .property target name → Knows target) {vs : List Value}
    (hvs : ∀ v ∈ vs, Knows v) (hlength : vs.length = (node.parts vs).length) :
    R (node.finish left run scope vs)
      ((node.rename ρ).finish right run' (ρ.scope scope) (vs.map (Value.rename ρ))) := by
  cases node with
  | meaning name => exact h.readName rfl
  | property target name => exact h.readProperty (hnode target name rfl) (.inl rfl)
  | block b =>
      obtain ⟨hlast, heq⟩ := h.last hvs
      have hgiven := h.given hlast
      rw [← heq] at hgiven
      exact hgiven
  | stmt s => exact h.finish_stmt hvs hlength
  | expr e => exact h.finish_expr hvs hlength

end Finishes

end Relates

end Scripting
