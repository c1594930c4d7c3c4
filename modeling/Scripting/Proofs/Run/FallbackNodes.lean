import Scripting.Proofs.Run.Children
import Scripting.Proofs.Run.FallbackCalls

/-!
# Nodes with and without copies of methods

Nodes that read the methods as callees only agree, along the tree, as long as the bodies that are
run do (`Copies.agrees_eval`). The callee of a call is the one place where the two runs may have
read different values; all else they do with the same values but for the numbers. That the bodies
agree follows by the limit on nesting (`Copies.agrees_runBody`).
-/

namespace Scripting

namespace Copies

open Registry

variable {K : Copies} {a : Pairing} {options : Options} {run : RunBody}

/-! ### Last steps -/

theorem agrees_leaf {e : Expr} (hnode : K.OnlyCalled e.nodes) (scope : Nat) (hleaf : e.IsLeaf) :
    K.AgreesOn a (e.eval options run scope) (e.eval options run scope) := by
  cases e with
  | missing => exact agrees_fail _
  | ident name => exact agrees_readName scope name
  | int value literal => exact agrees_plain trivial
  | str value => exact agrees_plain trivial
  | bool value => exact agrees_plain trivial
  | null => exact agrees_plain trivial
  | this => exact agrees_lookupOrFail scope "this" .thisNotFound
  | super => exact agrees_lookupOrFail scope "super" .superNotFound
  | function literal =>
      have hbody : K.OnlyCalled (Block.nodes literal.body) := by
        rw [← FunctionLiteral.nodes_eq]
        exact fun n hn => hnode n (List.mem_cons_of_mem _ hn)
      exact agrees_newFunction literal scope hbody
  | _ => exact absurd hleaf id

section

variable (hrun : K.AgreesInBodies run)
include hrun

theorem finishes {node : Part} (hnode : K.OnlyCalled node.nodes) (htree : node.InTree)
    (scope : Nat) :
    Relates.Finishes options options run run a.toRenaming a.registry.Knows (K.AgreesOn a) scope
      node where
  toRelates := relates
  leaf h hleaf := by
    subst h
    exact agrees_leaf hnode scope hleaf
  readName _ := agrees_readName scope _
  readProperty {target name} htarget h := by
    rcases h with rfl | ⟨object, rfl⟩
    · exact absurd htree id
    · exact agrees_readProperty scope (hnode _ List.mem_cons_self name rfl) htarget
  assignTo _ hv := agrees_assignTo scope _ hv
  assignProperty name hv := agrees_assignProperty name hv
  makeObject hcallee hargs := agrees_makeObject hrun hcallee hargs
  callValue hcallee hargs hreceiver := agrees_callValue hrun hcallee hargs hreceiver
  bind name hv :=
    (agrees_bindName scope name hv).bind fun _ _ _ _ _ => agrees_plain trivial
  finishClass {name superclass methods vs} h hvs _ := by
    subst h
    refine agrees_finishClass scope name (fun row hrow n hn => hnode n ?_) hvs
    refine List.mem_cons_of_mem _ (List.mem_append_right _ ?_)
    exact (Part.sublist_literal_nodesIn hrow).subset hn

/-- What a node does once its parts gave ordinary values. -/
theorem agrees_finish {node : Part} (hnode : K.OnlyCalled node.nodes) (htree : node.InTree)
    (scope : Nat) {vs : List Value} (hvs : ∀ v ∈ vs, a.registry.Knows v)
    (hlength : vs.length = (node.parts vs).length) :
    K.AgreesOn a (node.finish options run scope vs)
      (node.finish options run scope (vs.map (Value.rename a.toRenaming))) := by
  have hproperty : ∀ target name, node = .property target name → a.registry.Knows target := by
    rintro target name rfl
    exact absurd htree id
  have hfinish : K.AgreesOn a (node.finish options run scope vs)
      ((node.rename a.toRenaming).finish options run scope (vs.map (Value.rename a.toRenaming))) :=
    (finishes hrun hnode htree scope).finish hproperty hvs hlength
  rw [htree.rename] at hfinish
  exact hfinish

/-! ### Evaluation -/

omit hrun in
/-- Parts from left to right agree where what is done with their values does. -/
theorem agrees_evalAll (scope : Nat) {parts : List Part} {f g : List Value → Eval Value}
    (hparts : ∀ part ∈ parts, ∀ b : Pairing,
      K.AgreesOn b (part.eval options run scope) (part.eval options run scope))
    (hfinish : ∀ b vs, a.Later b → vs.length = parts.length → (∀ v ∈ vs, b.registry.Knows v) →
      K.AgreesOn b (f vs) (g (vs.map (Value.rename b.toRenaming)))) :
    K.AgreesOn a ((Part.evalAll options run scope parts).onGathered f)
      ((Part.evalAll options run scope parts).onGathered g) := by
  induction parts generalizing a f g with
  | nil =>
      rw [Part.onGathered_evalAll_nil, Part.onGathered_evalAll_nil]
      exact hfinish a [] (.refl a) rfl fun _ h => absurd h List.not_mem_nil
  | cons part rest ih =>
      rw [Part.onGathered_evalAll_cons, Part.onGathered_evalAll_cons]
      refine (hparts part List.mem_cons_self a).onValue fun b v hb hv => ?_
      refine ih (fun p hp => hparts p (List.mem_cons_of_mem _ hp)) fun c vs hc hlength hvs => ?_
      -- What the first part gave has the same counterpart after the other parts.
      rw [← hc.rename hv]
      exact hfinish c (v :: vs) (hb.trans hc) (congrArg Nat.succ hlength)
        (List.forall_mem_cons.mpr ⟨hv.mono hc.registry, hvs⟩)

/-- A call whose callee is a property, where its other parts agree. -/
theorem agrees_methodCall {object : Expr} {name : String} {args : List Expr} (scope : Nat)
    (hobject : K.AgreesOn a (object.eval options run scope) (object.eval options run scope))
    (hargs : ∀ part ∈ args.map Part.expr, ∀ b : Pairing,
      K.AgreesOn b (part.eval options run scope) (part.eval options run scope)) :
    K.AgreesOn a ((Expr.call (.property object name) args).eval options run scope)
      ((Expr.call (.property object name) args).eval options run scope) := by
  rw [Expr.eval]
  refine hobject.onValue fun b target _ htarget => ?_
  refine Agrees.onValue (agrees_fetch scope name htarget) (fun _ _ _ h => h.isSignal) ?_ ?_
  · intro c callee callee' hcallee hsignal
    cases hcallee with
    | given h => exact h
    | copied => cases hsignal
  · intro c callee callee' hc hcallee
    rw [← Part.evalAll_map_expr]
    refine agrees_evalAll scope hargs fun d vs hd _ hvs => ?_
    rw [← (hc.trans hd).rename htarget]
    exact agrees_callFetched hrun (htarget.mono (hc.trans hd).registry) (hcallee.later hd) hvs

/-- Every node of a tree that reads the methods as callees only agrees with itself, if the bodies of
functions do. -/
theorem agrees_eval {node : Part} (hnode : K.OnlyCalled node.nodes) (htree : node.InTree)
    (scope : Nat) : K.AgreesOn a (node.eval options run scope) (node.eval options run scope) := by
  -- The parts of a node have fewer nodes. What a call runs is no part: `hrun` covers it.
  induction hsize : node.nodes.length using Nat.strongRecOn generalizing node a with
  | ind n ih =>
      subst hsize
      have hpart (part : Part) (vs : List Value) (hmem : part ∈ node.parts vs)
          (hpart : part.InTree) (b : Pairing) :
          K.AgreesOn b (part.eval options run scope) (part.eval options run scope) :=
        ih _ (Part.length_nodes_lt hmem)
          (fun n hn => hnode n (Part.mem_nodes_of_mem_parts hmem hn)) hpart rfl
      by_cases hcall : ∃ object name args, node = .expr (.call (.property object name) args)
      · obtain ⟨object, name, args, rfl⟩ := hcall
        have hobject := hpart (.expr object) [] List.mem_cons_self trivial a
        refine agrees_methodCall hrun scope hobject fun part hmem b => ?_
        have hmem' : part ∈ (Part.expr (.call (.property object name) args)).parts [.null] :=
          List.mem_cons_of_mem _ (List.mem_cons_of_mem _ hmem)
        refine hpart part [.null] hmem' ?_ b
        obtain ⟨arg, -, rfl⟩ := List.mem_map.mp hmem
        trivial
      · have hparts {vs : List Value} : ∀ part ∈ node.parts vs, part.InTree := by
          intro part hmem
          cases part with
          | property target name =>
              obtain ⟨-, object, args, heq⟩ := Part.of_property_mem hmem
              exact hcall ⟨object, name, args, heq⟩
          | _ => trivial
        rw [Part.eval_eq, Part.evalInOrder]
        cases hfirst : node.parts [] with
        | nil =>
            exact agrees_finish hrun hnode htree scope (fun _ h => absurd h List.not_mem_nil)
              (congrArg List.length hfirst.symm)
        | cons first rest =>
            have hmem : first ∈ node.parts [] := hfirst ▸ List.mem_cons_self
            refine (hpart first [] hmem (hparts first hmem) a).onValue fun b v _ hv => ?_
            have hright : node.parts [v.rename b.toRenaming] = node.parts [v] :=
              htree.parts_rename [v] hparts b.toRenaming
            rw [hright]
            refine agrees_evalAll scope (fun part hmem => ?_) fun c vs hc hlength hvs => ?_
            · have hmem' := List.mem_of_mem_tail hmem
              exact hpart part [v] hmem' (hparts part hmem')
            · rw [← hc.rename hv]
              exact agrees_finish hrun hnode htree scope
                (List.forall_mem_cons.mpr ⟨hv.mono hc.registry, hvs⟩)
                (Part.length_eq_of_tail hfirst hlength)

end

/-- Bodies agree, however deep they may nest. -/
theorem agrees_runBody (depth : Nat) : K.AgreesInBodies (runBody options depth) := by
  induction depth with
  | zero => exact fun _ _ _ _ => .tooDeep
  | succ depth ih =>
      intro body scope b hbody
      have hnode : K.OnlyCalled (Part.block body).nodes := hbody
      exact agrees_eval ih hnode trivial scope

/-- Programs agree. -/
theorem agrees_evalProgram (depth : Nat) {program : Block}
    (hprogram : K.OnlyCalled (Block.nodes program)) (scope : Nat) :
    K.AgreesOn a (program.evalProgram options (runBody options depth) scope)
      (program.evalProgram options (runBody options depth) scope) := by
  have hnode : K.OnlyCalled (Part.block program).nodes := hprogram
  exact AgreesOn.unwrapReturn (agrees_eval (agrees_runBody depth) hnode trivial scope)

end Copies

end Scripting
