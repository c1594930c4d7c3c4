import Scripting.Proofs.Run.Agreement

/-!
# Simulation of one run by another

`Simulation K left right` collects what a comparison and two sets of options have to satisfy so that
evaluation under the first is followed by evaluation under the second. What depends on the options
comes first: properties, constructors, the bindings of calls and assignments. Then all evaluation
agrees, along the tree, as long as the bodies that are run do (`Simulation.agrees_eval`); that they
do follows by the limit on nesting (`Simulation.agrees_runBody`).
-/

namespace Scripting

namespace Part

/-- The names that a node itself looks up or assigns to. -/
def names : Part → List String
  | expr (.ident name) | expr (.assign (.ident name) _) | meaning name => [name]
  | expr .this => ["this"]
  | expr .super => ["super"]
  | _ => []

end Part

namespace Class

/-- A class that inherits from nothing or has a constructor of its own. -/
def MakesItself (c : Class) : Prop :=
  c.ancestors = [] ∨ (c.own.methods.get? "constructor").isSome

/-- A method of the class itself is found wherever else methods are looked up. -/
theorem findMethod?_of_own {c : Class} {name : String} {found : Closure × Class}
    (h : c.findMethod? false name = some found) (walk : Bool) :
    c.findMethod? walk name = some found := by
  cases walk with
  | false => exact h
  | true =>
      unfold findMethod? at h ⊢
      rw [if_neg Bool.false_ne_true, List.findSome?_singleton] at h
      rw [if_pos rfl, lineage_eq, List.findSome?_cons, h]

/-- The constructor of a class that makes itself does not depend on where methods are looked up. -/
theorem MakesItself.findMethod? {c : Class} (h : c.MakesItself) (walk : Bool) :
    c.findMethod? walk "constructor" = c.findMethod? false "constructor" := by
  rcases h with hnone | hown
  · obtain ⟨own, ancestors⟩ := c
    subst hnone
    cases walk <;> rfl
  · obtain ⟨method, hmethod⟩ := Option.isSome_iff_exists.mp hown
    rw [findMethod?_of_get? hmethod, findMethod?_of_get? hmethod]

end Class

/-- What a comparison and two sets of options have to satisfy so that runs under them correspond.
Where the second run looks methods up in more classes than the first, or accepts more assignments,
the runs part only behind an error of the first. -/
structure Simulation (K : Comparison) (left right : Options) : Prop where
  names : ∀ n, K.Admits n → ∀ name ∈ n.names, K.hidden name = false
  this : K.hidden "this" = false
  classes : ∀ name superclass methods, K.Admits (.stmt (.classDef name superclass methods)) →
    ∀ ident (closures : List (String × Closure)) ancestors,
      closures.map (fun row => (row.1, row.2.literal)) = methods →
        (superclass = none → ancestors = []) →
          K.AdmitsClass ⟨⟨ident, name, Table.ofList closures⟩, ancestors⟩
  walks : left.walksSuperclasses = right.walksSuperclasses ∨
    (left.walksSuperclasses = false ∧ K.partsOnError ∧ K.hidden "super" = true ∧
      ∀ c, K.AdmitsClass c → c.MakesItself)
  strict : left.strictAssignment = right.strictAssignment ∨
    (left.strictAssignment = true ∧ K.partsOnError)

namespace Simulation

open Comparison

variable {K : Comparison} {left right : Options} (S : Simulation K left right)
include S

/-! ### What depends on the options -/

/-- A method that the first run finds is found by the second. -/
theorem findMethod? {c : Class} {name : String} {f : Closure} {k : Class}
    (h : c.findMethod? left.walksSuperclasses name = some (f, k)) :
    (c.rename K.shift).findMethod? right.walksSuperclasses name =
      some (f.rename K.shift, k.rename K.shift) := by
  have hright : c.findMethod? right.walksSuperclasses name = some (f, k) := by
    rcases S.walks with heq | ⟨hleft, -⟩
    · exact heq ▸ h
    · exact Class.findMethod?_of_own (hleft ▸ h) _
  rw [Class.findMethod?_rename, hright, Option.map_some]

/-- A method that only the second run finds is the end of the first. -/
theorem findMethod?_eq_none {c : Class} {name : String}
    (h : c.findMethod? left.walksSuperclasses name = none) :
    (c.rename K.shift).findMethod? right.walksSuperclasses name = none ∨ K.partsOnError := by
  rcases S.walks with heq | ⟨-, hparts, -⟩
  · rw [Class.findMethod?_rename, ← heq, h]
    exact .inl rfl
  · exact .inr hparts

theorem findMethod?_constructor {c : Class} (hc : K.HoldsClass c) :
    (c.rename K.shift).findMethod? right.walksSuperclasses "constructor" =
      (c.findMethod? left.walksSuperclasses "constructor").map fun found =>
        (found.1.rename K.shift, found.2.rename K.shift) := by
  have hright : c.findMethod? right.walksSuperclasses "constructor" =
      c.findMethod? left.walksSuperclasses "constructor" := by
    rcases S.walks with heq | ⟨hleft, -, -, hmakes⟩
    · rw [heq]
    · rw [hleft]
      exact (hmakes c (hc c c.mem_lineage_self).1).findMethod? _
  rw [Class.findMethod?_rename, hright]

theorem tables_callTable (f : Closure) (args : List Value) (receiver : Option Object)
    (owner : Option Class) :
    K.Tables (callTable left f args receiver owner)
      (callTable right (f.rename K.shift) (args.map (Value.rename K.shift))
        (receiver.map (Object.rename K.shift)) (owner.map (Class.rename K.shift))) := by
  rw [callTable_rename]
  cases owner with
  | none => exact tables_mapContents _
  | some c =>
      rcases S.walks with heq | ⟨hleft, -, hsuper, -⟩
      · have htables : callTable right f args receiver (some c) =
            callTable left f args receiver (some c) := by
          simp only [callTable, heq]
        rw [htables]
        exact tables_mapContents _
      · have hbindings := tables_mapContents (K := K) (callBindings f.params args receiver)
        simp only [callTable, hleft, Bool.false_eq_true, if_false]
        split
        · rw [← withSuper_rename]
          exact hbindings.withSuper hsuper _
        · exact hbindings

omit S in
theorem agrees_boundMethod {f : Closure} {o : Object} {owner : Class} (hf : K.AdmitsBody f.body)
    (ho : K.HoldsClass o.cls) (howner : K.HoldsClass owner) :
    K.Agrees (Eval.freshIdent >>= fun i => pure (.boundMethod i f o owner))
      (Eval.freshIdent >>= fun i =>
        pure (.boundMethod i (f.rename K.shift) (o.rename K.shift) (owner.rename K.shift))) := by
  refine freshIdent_matches.bind ?_
  rintro i _ rfl
  exact Eval.Corresponds.pure ⟨holds_boundMethod.mpr ⟨hf, ho, howner⟩, rfl⟩

/-- A method of a class is bound to the current object, if there is one. -/
theorem agrees_bindThis (scope : Nat) {f : Closure} {owner : Class} (hf : K.AdmitsBody f.body)
    (howner : K.HoldsClass owner) :
    K.Agrees
      (do
        match ← Eval.lookup scope "this" with
        | some (.object o) => return .boundMethod (← Eval.freshIdent) f o owner
        | _ => pure (.function f))
      (do
        match ← Eval.lookup (K.shift.scope scope) "this" with
        | some (.object o) =>
            return .boundMethod (← Eval.freshIdent) (f.rename K.shift) o (owner.rename K.shift)
        | _ => pure (.function (f.rename K.shift))) := by
  have hfunction : K.Agrees (pure (.function f)) (pure (.function (f.rename K.shift))) :=
    Eval.Corresponds.pure ⟨holds_function.mpr hf, rfl⟩
  refine (lookup_matches S.this scope).bind fun a b hab => ?_
  cases hab with
  | none => exact hfunction
  | @some v _ hv =>
      obtain ⟨hv, rfl⟩ := hv
      cases v with
      | object o => exact agrees_boundMethod hf (holds_object.mp hv) howner
      | _ => exact hfunction

/-- A property of an object: its own, or a method of its class. -/
theorem agrees_readObject (scope : Nat) {o : Object} (name : String) (ho : K.HoldsClass o.cls) :
    K.Agrees (readProperty left scope (.object o) name)
      (readProperty right (K.shift.scope scope) (.object (o.rename K.shift)) name) := by
  refine (ownProperty?_matches o name).bind fun a b hab => ?_
  cases hab with
  | some hv => exact Eval.Corresponds.pure hv
  | none =>
      have hcls : (o.rename K.shift).cls = o.cls.rename K.shift := rfl
      simp only [hcls]
      cases hmethod : o.cls.findMethod? left.walksSuperclasses name with
      | none =>
          rcases S.findMethod?_eq_none hmethod with hnone | hparts
          · rw [hnone]
            exact agrees_fail _
          · exact Eval.Corresponds.excepted ⟨hparts, rfl⟩ _
      | some found =>
          obtain ⟨hf, howner⟩ := ho.findMethod? hmethod
          rw [S.findMethod? hmethod]
          exact agrees_boundMethod hf ho howner

/-- A property of a class: a method, where methods are looked up in ancestors. -/
theorem agrees_readClass (scope : Nat) {c : Class} (name : String) (hc : K.HoldsClass c) :
    K.Agrees (readProperty left scope (.cls c) name)
      (readProperty right (K.shift.scope scope) (.cls (c.rename K.shift)) name) := by
  simp only [readProperty]
  rcases S.walks with heq | ⟨hleft, hparts, -⟩
  · rw [← heq]
    split
    · rw [Class.findMethod?_rename]
      cases hmethod : c.findMethod? true name with
      | none => exact agrees_fail _
      | some found =>
          obtain ⟨hf, howner⟩ := hc.findMethod? hmethod
          exact S.agrees_bindThis scope hf howner
    · exact agrees_fail _
  · rw [hleft, if_neg Bool.false_ne_true]
    exact Eval.Corresponds.excepted ⟨hparts, rfl⟩ _

theorem agrees_readProperty (scope : Nat) {target : Value} (name : String)
    (htarget : K.Holds target) :
    K.Agrees (readProperty left scope target name)
      (readProperty right (K.shift.scope scope) (target.rename K.shift) name) := by
  cases target with
  | object o => exact S.agrees_readObject scope name (holds_object.mp htarget)
  | hash i rows =>
      have hrows : Table.All (fun pair : Value × Value => K.Holds pair.1 ∧ K.Holds pair.2) rows :=
        holds_hash.mp htarget
      have hread (rows : List (String × Value × Value)) :
          readProperty right (K.shift.scope scope) (.hash (K.shift.ident i) rows) name =
            pure (((Table.get? rows name).map Prod.snd).getD .null) := rfl
      rw [Value.rename, hread, Value.renameRows_eq_mapContents, Table.get?_mapContents]
      refine Eval.Corresponds.pure ?_
      cases hget : Table.get? rows name with
      | none => exact values_of_isPlain trivial
      | some pair => exact ⟨(hrows.get? hget).2, rfl⟩
  | cls c => exact S.agrees_readClass scope name (holds_cls.mp htarget)
  | _ => exact agrees_fail _

theorem agrees_assignTo (scope : Nat) {name : String} (hname : K.hidden name = false) {v : Value}
    (hv : K.Holds v) :
    K.Agrees (assignTo left scope name v)
      (assignTo right (K.shift.scope scope) name (v.rename K.shift)) := by
  have hvalues : K.Values v (v.rename K.shift) := ⟨hv, rfl⟩
  refine (assignName_matches hname scope hvalues).bind ?_
  rintro bound _ rfl
  have hbind : K.Agrees
      (do
        Eval.bindName scope name v
        pure v)
      (do
        Eval.bindName (K.shift.scope scope) name (v.rename K.shift)
        pure (v.rename K.shift)) :=
    (bindName_matches scope name hvalues).bind fun _ _ _ => Eval.Corresponds.pure hvalues
  cases bound with
  | true => exact Eval.Corresponds.pure hvalues
  | false =>
      simp only [Bool.false_eq_true, if_false]
      rcases S.strict with heq | ⟨hleft, hparts⟩
      · rw [← heq]
        split
        · exact agrees_fail _
        · exact hbind
      · rw [if_pos hleft]
        exact Eval.Corresponds.excepted ⟨hparts, rfl⟩ _

/-! ### Classes -/

/-- A class that inherits from admitted classes is admitted where its definition is. -/
theorem holdsClass_of_admits {name : String}
    {superclass : Option String} {methods : List (String × FunctionLiteral)}
    (hnode : K.AdmitsPart (.stmt (.classDef name superclass methods))) {ident : Nat}
    {closures : List (String × Closure)}
    (hclosures : closures.map (fun row => (row.1, row.2.literal)) = methods)
    {ancestors : List ClassBody} (hancestors : superclass = none → ancestors = [])
    (hlineage : ∀ k ∈ (⟨⟨ident, name, Table.ofList closures⟩, ancestors⟩ : Class).lineage.tail,
      K.AdmitsClass k ∧ k.own.methods.All fun f => K.AdmitsBody f.body) :
    K.HoldsClass ⟨⟨ident, name, Table.ofList closures⟩, ancestors⟩ := by
  have hmethods : Table.All (fun f : Closure => K.AdmitsBody f.body) closures := by
    intro row hrow n hn
    have hliteral : (row.1, row.2.literal) ∈ methods :=
      hclosures ▸ List.mem_map_of_mem hrow
    refine hnode n (List.mem_cons_of_mem _ (List.mem_append_right _ ?_))
    exact (Part.sublist_literal_nodesIn hliteral).subset hn
  intro k hk
  rw [Class.lineage_eq] at hk hlineage
  rcases List.mem_cons.mp hk with rfl | hk
  · exact ⟨S.classes name superclass methods hnode.stmt ident closures ancestors hclosures
      hancestors, Table.All.ofList hmethods⟩
  · exact hlineage k hk

theorem agrees_finishClass (scope : Nat) {name : String}
    {superclass : Option String} {methods : List (String × FunctionLiteral)}
    (hnode : K.AdmitsPart (.stmt (.classDef name superclass methods))) {vs : List Value}
    (hvs : ∀ v ∈ vs, K.Holds v) (hlength : vs.length = superclass.toList.length) :
    K.Agrees (Part.finishClass scope name methods vs)
      (Part.finishClass (K.shift.scope scope) name methods (vs.map (Value.rename K.shift))) := by
  cases vs with
  | nil =>
      refine agrees_bindClass scope name fun ident closures hclosures => ?_
      exact S.holdsClass_of_admits hnode hclosures (fun _ => rfl) (fun k hk => nomatch hk)
  | cons v vs =>
      have hsome : superclass ≠ none := by
        rintro rfl
        cases hlength
      cases v with
      | cls c =>
          have hc := holds_cls.mp (hvs _ List.mem_cons_self)
          refine agrees_bindClass scope name fun ident closures hclosures => ?_
          exact S.holdsClass_of_admits hnode hclosures (fun h => absurd h hsome) hc
      | _ => exact agrees_fail _

section

variable {run run' : RunBody}
  (hrun : ∀ body scope, K.AdmitsBody body →
    K.Agrees (run body scope) (run' body (K.shift.scope scope)))
include hrun

/-! ### Calls -/

theorem agrees_callFunction {f : Closure} {args : List Value} {receiver : Option Object}
    {owner : Option Class} (hf : K.AdmitsBody f.body) (hargs : ∀ v ∈ args, K.Holds v)
    (hreceiver : ∀ o ∈ receiver, K.HoldsClass o.cls) (howner : ∀ c ∈ owner, K.HoldsClass c) :
    K.Agrees (callFunction left run f args receiver owner)
      (callFunction right run' (f.rename K.shift) (args.map (Value.rename K.shift))
        (receiver.map (Object.rename K.shift)) (owner.map (Class.rename K.shift))) := by
  rw [callFunction_eq, callFunction_eq]
  refine (enterScope_matches f.scope (holds_callTable left f hargs hreceiver howner)
    (S.tables_callTable f args receiver owner)).bind ?_
  rintro scope _ rfl
  exact Agrees.unwrapReturn (hrun f.body scope hf)

theorem agrees_callValue {callee : Value} {args : List Value} {receiver : Option Object}
    (hcallee : K.Holds callee) (hargs : ∀ v ∈ args, K.Holds v)
    (hreceiver : ∀ o ∈ receiver, K.HoldsClass o.cls) :
    K.Agrees (callValue left run callee args receiver)
      (callValue right run' (callee.rename K.shift) (args.map (Value.rename K.shift))
        (receiver.map (Object.rename K.shift))) := by
  cases callee with
  | boundMethod i f o owner =>
      obtain ⟨hf, ho, howner⟩ := holds_boundMethod.mp hcallee
      have hreceiver : ∀ o' ∈ some o, K.HoldsClass o'.cls := fun _ h =>
        Option.mem_some_iff.mp h ▸ ho
      have hclass : ∀ c ∈ some owner, K.HoldsClass c := fun _ h =>
        Option.mem_some_iff.mp h ▸ howner
      exact S.agrees_callFunction hrun hf hargs hreceiver hclass
  | function f =>
      have howner : ∀ c ∈ receiver.map Object.cls, K.HoldsClass c := by
        intro c hc
        obtain ⟨o, ho, rfl⟩ := Option.map_eq_some_iff.mp hc
        exact hreceiver o ho
      have hcall := S.agrees_callFunction hrun (holds_function.mp hcallee) hargs hreceiver howner
      rw [Option.map_map] at hcall
      have hreceivers : (receiver.map (Object.rename K.shift)).map Object.cls =
          receiver.map (Class.rename K.shift ∘ Object.cls) := by
        rw [Option.map_map]
        rfl
      rw [← hreceivers] at hcall
      exact hcall
  | builtin b => exact relates.builtin b hargs
  | _ => exact agrees_fail _

omit S in
/-- A constructor gives its object or an error. -/
theorem agrees_construct {o : Object} {method : Closure} {owner : Class} {args : List Value}
    (ho : K.HoldsClass o.cls) (hbody : K.AdmitsBody method.body) (howner : K.HoldsClass owner)
    (hargs : ∀ v ∈ args, K.Holds v) :
    K.Agrees
      (do
        let scope ← Eval.enterScope method.scope (constructorTable method args o owner)
        let result ← run method.body scope
        if result.isError then pure result else pure (.object o))
      (do
        let scope ← Eval.enterScope (K.shift.scope method.scope)
          (constructorTable (method.rename K.shift) (args.map (Value.rename K.shift))
            (o.rename K.shift) (owner.rename K.shift))
        let result ← run' method.body scope
        if result.isError then pure result else pure (.object (o.rename K.shift))) := by
  rw [constructorTable_rename]
  refine (enterScope_matches method.scope (holds_constructorTable method hargs ho howner)
    (tables_mapContents _)).bind ?_
  rintro scope _ rfl
  refine (hrun method.body scope hbody).bind ?_ ?_
  · rintro v _ ⟨hv, rfl⟩
    rw [Value.isError_rename]
    split
    · exact Eval.Corresponds.pure ⟨hv, rfl⟩
    · exact Eval.Corresponds.pure ⟨holds_object.mpr ho, rfl⟩
  · exact fun v hv => ⟨v, if_pos hv.2, hv⟩

theorem agrees_makeObject {callee : Value} {args : List Value} (hcallee : K.Holds callee)
    (hargs : ∀ v ∈ args, K.Holds v) :
    K.Agrees (makeObject left run callee args)
      (makeObject right run' (callee.rename K.shift) (args.map (Value.rename K.shift))) := by
  cases callee with
  | cls c =>
      have hc := holds_cls.mp hcallee
      have hproperties : Table.All K.Holds
          (c.own.methods.map fun row => (row.1, Value.function row.2)) := by
        intro row hrow
        obtain ⟨method, hmethod, rfl⟩ := List.mem_map.mp hrow
        exact holds_function.mpr (hc.methods method hmethod)
      have hrenamed : ((c.rename K.shift).own.methods.map fun row =>
            (row.1, Value.function row.2)) =
          Table.mapContents (Value.rename K.shift)
            (c.own.methods.map fun row => (row.1, Value.function row.2)) := by
        simp [Class.rename, ClassBody.rename, Table.mapContents, Value.rename]
      simp only [Value.rename, makeObject]
      rw [hrenamed, S.findMethod?_constructor hc]
      refine (newObject_matches c hproperties).bind ?_
      rintro o _ ⟨rfl, rfl⟩
      cases hmethod : o.cls.findMethod? left.walksSuperclasses "constructor" with
      | none => exact Eval.Corresponds.pure ⟨holds_object.mpr hc, rfl⟩
      | some found =>
          obtain ⟨hbody, howner⟩ := hc.findMethod? hmethod
          exact agrees_construct hrun hc hbody howner hargs
  | _ => exact agrees_fail _

/-! ### Nodes -/

omit hrun in
theorem agrees_leaf {e : Expr} (hnode : K.AdmitsPart (.expr e)) (scope : Nat)
    (hleaf : e.IsLeaf) :
    K.Agrees (e.eval left run scope) (e.eval right run' (K.shift.scope scope)) := by
  cases e with
  | missing => exact agrees_fail _
  | ident name =>
      exact agrees_readName (S.names _ hnode.expr name List.mem_cons_self) scope
  | int value literal => exact agrees_plain trivial
  | str value => exact agrees_plain trivial
  | bool value => exact agrees_plain trivial
  | null => exact agrees_plain trivial
  | this => exact agrees_ofLookup _ (lookup_matches S.this scope)
  | super =>
      have hname := S.names _ hnode.expr "super" List.mem_cons_self
      exact agrees_ofLookup _ (lookup_matches hname scope)
  | function literal =>
      refine freshIdent_matches.bind ?_
      rintro i _ rfl
      have hbody : K.AdmitsBody literal.body := by
        intro n hn
        refine hnode n (List.mem_cons_of_mem _ ?_)
        rwa [FunctionLiteral.nodes_eq]
      exact Eval.Corresponds.pure ⟨holds_function.mpr hbody, rfl⟩
  | _ => exact absurd hleaf id

theorem finishes {node : Part} (hnode : K.AdmitsPart node) (scope : Nat) :
    Relates.Finishes left right run run' K.shift K.Holds K.Agrees scope node where
  toRelates := relates
  leaf h hleaf := by
    subst h
    exact S.agrees_leaf hnode scope hleaf
  readName {name} h := by
    subst h
    exact agrees_readName (S.names _ (hnode _ List.mem_cons_self) name List.mem_cons_self) scope
  readProperty htarget _ := S.agrees_readProperty scope _ htarget
  assignTo {name value v} h hv := by
    subst h
    exact S.agrees_assignTo scope (S.names _ hnode.expr name List.mem_cons_self) hv
  assignProperty name hv := agrees_assignProperty name hv
  makeObject hcallee hargs := S.agrees_makeObject hrun hcallee hargs
  callValue hcallee hargs hreceiver :=
    S.agrees_callValue hrun hcallee hargs fun o ho => holds_object.mp (hreceiver o ho)
  bind name hv :=
    (bindName_matches scope name ⟨hv, rfl⟩).bind fun _ _ _ => agrees_plain trivial
  finishClass h hvs hlength := by
    subst h
    exact S.agrees_finishClass scope hnode hvs hlength

theorem agrees_finish {node : Part} (hnode : K.AdmitsPart node) (scope : Nat) {vs : List Value}
    (hvs : ∀ v ∈ vs, K.Holds v) (hlength : vs.length = (node.parts vs).length) :
    K.Agrees (node.finish left run scope vs)
      ((node.rename K.shift).finish right run' (K.shift.scope scope)
        (vs.map (Value.rename K.shift))) := by
  refine (S.finishes hrun hnode scope).finish ?_ hvs hlength
  rintro target name rfl
  exact hnode

/-! ### Evaluation -/

omit S hrun in
/-- Parts from left to right correspond where what is done with their values does. -/
theorem agrees_evalAll (scope : Nat) :
    ∀ (parts : List Part) {f g : List Value → Eval Value},
      (∀ part ∈ parts, K.Agrees (part.eval left run scope)
        ((part.rename K.shift).eval right run' (K.shift.scope scope))) →
      (∀ vs : List Value, vs.length = parts.length → (∀ v ∈ vs, K.Holds v) →
        K.Agrees (f vs) (g (vs.map (Value.rename K.shift)))) →
      K.Agrees ((Part.evalAll left run scope parts).onGathered f)
        ((Part.evalAll right run' (K.shift.scope scope)
          (parts.map (Part.rename K.shift))).onGathered g)
  | [], f, g, _, hfinish => by
      rw [List.map_nil, Part.onGathered_evalAll_nil, Part.onGathered_evalAll_nil]
      exact hfinish [] rfl fun _ h => nomatch h
  | part :: rest, f, g, hparts, hfinish => by
      rw [List.map_cons, Part.onGathered_evalAll_cons, Part.onGathered_evalAll_cons]
      refine (hparts part List.mem_cons_self).onValue fun v hv => ?_
      refine agrees_evalAll scope rest (fun p hp => hparts p (List.mem_cons_of_mem _ hp)) ?_
      intro vs hlength hvs
      exact hfinish (v :: vs) (congrArg Nat.succ hlength) (List.forall_mem_cons.mpr ⟨hv, hvs⟩)

/-- Under the two sets of options, every admitted node evaluates to corresponding results in
corresponding states, if the bodies of functions do. -/
theorem agrees_eval {node : Part} (hnode : K.AdmitsPart node) (scope : Nat) :
    K.Agrees (node.eval left run scope)
      ((node.rename K.shift).eval right run' (K.shift.scope scope)) := by
  -- The parts of a node have fewer nodes. What a call runs is no part: `hrun` covers it.
  induction hsize : node.nodes.length using Nat.strongRecOn generalizing node with
  | ind n ih =>
      subst hsize
      have hparts {vs : List Value} (hvs : ∀ v ∈ vs, K.Holds v) (part : Part)
          (hpart : part ∈ node.parts vs) :
          K.Agrees (part.eval left run scope)
            ((part.rename K.shift).eval right run' (K.shift.scope scope)) :=
        ih _ (Part.length_nodes_lt hpart) (hnode.of_mem_parts hvs hpart) rfl
      have hnone : ∀ v ∈ ([] : List Value), K.Holds v := fun _ h => nomatch h
      have hright : (node.rename K.shift).parts [] = (node.parts []).map (Part.rename K.shift) :=
        Part.parts_rename K.shift node []
      rw [Part.eval_eq, Part.eval_eq, Part.evalInOrder, Part.evalInOrder, hright]
      cases hfirst : node.parts [] with
      | nil => exact S.agrees_finish hrun hnode scope hnone (congrArg List.length hfirst.symm)
      | cons first rest =>
          have hmem : first ∈ node.parts [] := hfirst ▸ List.mem_cons_self
          refine Agrees.onValue (hparts hnone first hmem) fun v hv => ?_
          have hv' : ∀ w ∈ [v], K.Holds w := fun w hw => List.mem_singleton.mp hw ▸ hv
          have hright : (node.rename K.shift).parts [v.rename K.shift] =
              (node.parts [v]).map (Part.rename K.shift) := Part.parts_rename K.shift node [v]
          rw [hright, ← List.map_tail]
          refine agrees_evalAll scope _
            (fun part hpart => hparts hv' part (List.mem_of_mem_tail hpart)) ?_
          intro vs hlength hvs
          exact S.agrees_finish hrun hnode scope (List.forall_mem_cons.mpr ⟨hv, hvs⟩)
            (Part.length_eq_of_tail hfirst hlength)

end

/-- Bodies correspond, however deep they may nest. -/
theorem agrees_runBody (depth : Nat) {body : Block} (hbody : K.AdmitsBody body) (scope : Nat) :
    K.Agrees (runBody left depth body scope)
      (runBody right depth body (K.shift.scope scope)) := by
  induction depth generalizing body scope with
  | zero => exact Eval.Corresponds.tooDeep
  | succ depth ih =>
      have hnode : K.AdmitsPart (.block body) := hbody
      exact S.agrees_eval (fun _ scope h => ih h scope) hnode scope

/-- Programs correspond. -/
theorem agrees_evalProgram (depth : Nat) {program : Block} (hprogram : K.AdmitsBody program)
    (scope : Nat) :
    K.Agrees (program.evalProgram left (runBody left depth) scope)
      (program.evalProgram right (runBody right depth) (K.shift.scope scope)) := by
  have hnode : K.AdmitsPart (.block program) := hprogram
  exact Agrees.unwrapReturn
    (S.agrees_eval (fun _ scope h => S.agrees_runBody depth h scope) hnode scope)

end Simulation

end Scripting
