import Scripting.Proofs.Run.Fallback

/-!
# Calls with and without copies of methods

A copy of a method that is called has the object as receiver, and the class of the object as owner;
a bound method brings the same two along. So both calls run one body under the same bindings
(`Copies.agrees_callFetched`). All calls agree, as long as the bodies that they run do, and so does
the making of objects and of classes.
-/

namespace Scripting

namespace Copies

open Registry

variable {K : Copies} {a : Pairing} {options : Options} {run : RunBody}

/-! ### Built-in functions -/

theorem agrees_print (args : List Value) :
    K.AgreesOn a (Builtin.print.call args)
      (Builtin.print.call (args.map (Value.rename a.toRenaming))) := by
  refine Agrees.bind (Agrees.forM (fun v b => ?_) args) fun _ _ _ _ _ => ?_
  · rw [Value.inspect_rename]
    exact agrees_printLine v.inspect
  · exact agrees_plain trivial

/-- Agreement is a relation of the kind that last steps are shown for. -/
theorem relates : Relates a.toRenaming a.registry.Knows (K.AgreesOn a) where
  plain := knows_of_isPlain
  element hv hu := (knows_array.mp hv).2 _ hu
  index position hv := knows_index hv position
  returned hv := knows_returned.mpr hv
  given hv := .pure ⟨hv, rfl⟩
  newArray := agrees_newArray
  newHash := agrees_newHash
  print := agrees_print

/-! ### Classes -/

/-- The functions of a new class. -/
theorem agrees_closures (scope : Nat) {methods : List (String × FunctionLiteral)}
    (hmethods : ∀ row ∈ methods, K.OnlyCalled (Block.nodes row.2.body)) :
    K.Agrees a
      (fun b rows rows' => (∀ row ∈ rows, b.registry.KnowsClosure row.2) ∧
        rows' = rows.map fun row => (row.1, row.2.rename b.toRenaming))
      (methods.mapM fun row => return (row.1,
        { ident := ← Eval.freshIdent, literal := row.2, scope := scope : Closure }))
      (methods.mapM fun row => return (row.1,
        { ident := ← Eval.freshIdent, literal := row.2, scope := scope : Closure })) := by
  refine Agrees.mapM methods (fun row hrow b => ?_) fun hb hf => ?_
  · refine (agrees_freshIdent (fun i => .function ⟨i, row.2, scope⟩) ?_).bind ?_
    · rintro i _ ⟨⟩
      exact hmethods row hrow
    · rintro c i _ - ⟨hi, rfl⟩
      exact .pure ⟨hi, rfl⟩
  · exact ⟨hb.registry.value hf, congrArg (Prod.mk _) (hb.renamesAlike.closure hf)⟩

theorem agrees_bindClass (scope : Nat) (name : String)
    {methods : List (String × FunctionLiteral)} {ancestors : List ClassBody}
    (hmethods : ∀ row ∈ methods, K.OnlyCalled (Block.nodes row.2.body))
    (hancestors : ancestors = [] ∨
      ∃ c : Class, a.registry.KnowsClass c ∧ ancestors = c.own :: c.ancestors) :
    K.AgreesOn a (Part.bindClass scope name methods ancestors)
      (Part.bindClass scope name methods (ancestors.map (ClassBody.rename a.toRenaming))) := by
  refine (agrees_closures scope hmethods).bind ?_
  rintro b closures _ hb ⟨hclosures, rfl⟩
  let k (i : Nat) : Class := ⟨⟨i, name, Table.ofList closures⟩, ancestors⟩
  refine (agrees_freshIdent (fun i => .cls (k i)) (by rintro _ _ ⟨⟩)).bind ?_
  rintro c i _ hc ⟨hi, rfl⟩
  have hknown : c.registry.KnowsClass (k i) := by
    refine knowsClass_of_own hi ((Table.All.ofList hclosures).mono fun _ => hc.registry.value) ?_
    refine hancestors.imp_right ?_
    rintro ⟨d, hd, rfl⟩
    exact ⟨d, hd.mono (hb.trans hc).registry, rfl⟩
  have hmapped : Table.ofList (closures.map fun row => (row.1, row.2.rename b.toRenaming)) =
      (Table.ofList closures).mapContents (Closure.rename c.toRenaming) := by
    refine (Table.ofList_mapContents (Closure.rename b.toRenaming) closures).trans ?_
    refine Table.mapContents_congr ((Table.All.ofList hclosures).mono fun f hf => ?_)
    exact (hc.renamesAlike.closure hf).symm
  rw [hmapped, ← (hb.trans hc).renamesAlike.ancestors hancestors]
  refine (agrees_bindName scope name (v := .cls (k i)) hknown).bind fun _ _ _ _ _ => ?_
  exact agrees_plain trivial

theorem agrees_finishClass (scope : Nat) (name : String)
    {methods : List (String × FunctionLiteral)} {vs : List Value}
    (hmethods : ∀ row ∈ methods, K.OnlyCalled (Block.nodes row.2.body))
    (hvs : ∀ v ∈ vs, a.registry.Knows v) :
    K.AgreesOn a (Part.finishClass scope name methods vs)
      (Part.finishClass scope name methods (vs.map (Value.rename a.toRenaming))) := by
  cases vs with
  | nil => exact agrees_bindClass scope name hmethods (.inl rfl)
  | cons v vs =>
      cases v with
      | cls c =>
          exact agrees_bindClass scope name hmethods (.inr ⟨c, hvs _ List.mem_cons_self, rfl⟩)
      | _ => exact agrees_fail _

/-! ### Calls -/

/-- The body of a known function reads the methods as callees only. -/
theorem Agrees.of_knowsClosure {α β : Type} {Q : Pairing → α → β → Prop} {x : Eval α} {y : Eval β}
    {f : Closure} (hf : a.registry.KnowsClosure f)
    (h : K.OnlyCalled (Block.nodes f.body) → K.Agrees a Q x y) : K.Agrees a Q x y :=
  fun s t hs => h (hs.onlyCalled hf) s t hs

/-- A body with itself, on all states and in all scopes. -/
def AgreesInBodies (K : Copies) (run : RunBody) : Prop :=
  ∀ body scope b, K.OnlyCalled (Block.nodes body) → K.AgreesOn b (run body scope) (run body scope)

section

variable (hrun : K.AgreesInBodies run)
include hrun

theorem agrees_callFunction {f : Closure} {args : List Value} {receiver : Option Object}
    {owner : Option Class} (hf : a.registry.KnowsClosure f)
    (hargs : ∀ v ∈ args, a.registry.Knows v)
    (hreceiver : ∀ o, receiver = some o → a.registry.KnowsObject o)
    (howner : ∀ c, owner = some c → a.registry.KnowsClass c) :
    K.AgreesOn a (callFunction options run f args receiver owner)
      (callFunction options run (f.rename a.toRenaming) (args.map (Value.rename a.toRenaming))
        (receiver.map (Object.rename a.toRenaming)) (owner.map (Class.rename a.toRenaming))) := by
  refine Agrees.of_knowsClosure hf fun hbody => ?_
  rw [callFunction_eq, callFunction_eq, callTable_rename]
  refine (agrees_enterScope f.scope (all_callTable hargs hreceiver howner)).bind ?_
  rintro b _ scope - rfl
  exact (hrun f.body scope b hbody).unwrapReturn

theorem agrees_callValue {callee : Value} {args : List Value} {receiver : Option Object}
    (hcallee : a.registry.Knows callee) (hargs : ∀ v ∈ args, a.registry.Knows v)
    (hreceiver : ∀ o, receiver = some o → a.registry.KnowsObject o) :
    K.AgreesOn a (callValue options run callee args receiver)
      (callValue options run (callee.rename a.toRenaming) (args.map (Value.rename a.toRenaming))
        (receiver.map (Object.rename a.toRenaming))) := by
  cases callee with
  | boundMethod i f o owner =>
      obtain ⟨-, hf, ho, howner⟩ : a.registry.KnowsAt (.boundMethod i f o owner) := hcallee
      exact agrees_callFunction hrun hf hargs (fun _ h => Option.some.inj h ▸ ho)
        fun _ h => Option.some.inj h ▸ howner
  | function f =>
      have howner : ∀ c, receiver.map Object.cls = some c → a.registry.KnowsClass c := by
        intro c hc
        obtain ⟨o, ho, rfl⟩ := Option.map_eq_some_iff.mp hc
        exact (hreceiver o ho).2
      have howners : (receiver.map (Object.rename a.toRenaming)).map Object.cls =
          (receiver.map Object.cls).map (Class.rename a.toRenaming) := by
        cases receiver <;> rfl
      change K.AgreesOn a _ (callFunction options run (f.rename a.toRenaming) _ _
        ((receiver.map (Object.rename a.toRenaming)).map Object.cls))
      rw [howners]
      exact agrees_callFunction hrun hcallee hargs hreceiver howner
  | builtin b => exact relates.builtin b hargs
  | _ => exact agrees_fail _

/-- What was read of a value is called with the value as receiver. A copy of a method and the bound
method then run the same body under the same bindings. -/
theorem agrees_callFetched {target callee callee' : Value} {name : String} {args : List Value}
    (htarget : a.registry.Knows target) (hcallee : K.Fetched a target name callee callee')
    (hargs : ∀ v ∈ args, a.registry.Knows v) :
    K.AgreesOn a (callValue options run callee args target.object?)
      (callValue options run callee' (args.map (Value.rename a.toRenaming))
        (target.rename a.toRenaming).object?) := by
  cases hcallee with
  | given h =>
      obtain ⟨hknown, rfl⟩ := h
      rw [Value.object?_rename]
      refine agrees_callValue hrun hknown hargs fun o ho => ?_
      cases target with
      | object o' => exact Option.some.inj ho ▸ htarget
      | _ => cases ho
  | copied htarget' _ hf hobject =>
      subst htarget'
      exact agrees_callFunction hrun hf hargs (fun _ h => Option.some.inj h ▸ hobject)
        fun _ h => Option.some.inj h ▸ hobject.2

/-- The constructor of a new object runs, and gives the object or an error. -/
theorem agrees_construct {o : Object} {method : Closure} {owner : Class} {args : List Value}
    (ho : a.registry.KnowsObject o) (hmethod : a.registry.KnowsClosure method)
    (howner : a.registry.KnowsClass owner) (hargs : ∀ v ∈ args, a.registry.Knows v) :
    K.AgreesOn a
      (do
        let scope ← Eval.enterScope method.scope (constructorTable method args o owner)
        let result ← run method.body scope
        if result.isError then pure result else pure (.object o))
      (do
        let scope ← Eval.enterScope method.scope
          (constructorTable (method.rename a.toRenaming) (args.map (Value.rename a.toRenaming))
            (o.rename a.toRenaming) (owner.rename a.toRenaming))
        let result ← run method.body scope
        if result.isError then pure result else pure (.object (o.rename a.toRenaming))) := by
  have htable : (constructorTable method args o owner).All a.registry.Knows :=
    all_withSuper (Invariant.all_callBindings method.params hargs
      fun _ h => Option.some.inj h ▸ ho) howner
  refine Agrees.of_knowsClosure hmethod fun hbody => ?_
  rw [constructorTable_rename]
  refine (agrees_enterScope method.scope htable).bind ?_
  rintro b _ scope hb rfl
  refine (hrun method.body scope b hbody).bind ?_
  rintro c v _ hc ⟨hv, rfl⟩
  rw [Value.isError_rename]
  split
  · exact .pure ⟨hv, rfl⟩
  · have hobject : a.Values (.object o) (.object (o.rename a.toRenaming)) := ⟨ho, rfl⟩
    exact .pure (hobject.later (hb.trans hc))

theorem agrees_makeObject {callee : Value} {args : List Value} (hcallee : a.registry.Knows callee)
    (hargs : ∀ v ∈ args, a.registry.Knows v) :
    K.AgreesOn a (makeObject options run callee args)
      (makeObject options run (callee.rename a.toRenaming)
        (args.map (Value.rename a.toRenaming))) := by
  cases callee with
  | cls c =>
      have hc : a.registry.KnowsClass c := hcallee
      have hproperties : Table.All a.registry.Knows
          (c.own.methods.map fun row => (row.1, Value.function row.2)) := by
        intro row hrow
        obtain ⟨method, hmethod, rfl⟩ := List.mem_map.mp hrow
        exact (hc c c.mem_lineage_self).2 method hmethod
      have hrenamed : ((c.rename a.toRenaming).own.methods.map fun row =>
            (row.1, Value.function row.2)) =
          Table.mapContents (Value.rename a.toRenaming)
            (c.own.methods.map fun row => (row.1, Value.function row.2)) := by
        simp [Class.rename, ClassBody.rename, Table.mapContents, Value.rename]
      simp only [Value.rename, makeObject]
      rw [hrenamed, Class.findMethod?_rename]
      refine (agrees_newObject hc hproperties).bind ?_
      rintro b o _ hb ⟨⟨ho, rfl⟩, rfl⟩
      cases hmethod : o.cls.findMethod? options.walksSuperclasses "constructor" with
      | none => exact .pure ⟨ho, rfl⟩
      | some found =>
          obtain ⟨hf, howner⟩ := knows_findMethod? ho.2 hmethod
          have hargs' : ∀ v ∈ args, b.registry.Knows v := fun v hv => (hargs v hv).mono hb.registry
          have hold := knows_findMethod? hc hmethod
          rw [Option.map_some, ← hb.map_rename hargs, ← hb.renamesAlike.closure hold.1,
            ← hb.renamesAlike.cls hold.2]
          exact agrees_construct hrun ho hf howner hargs'
  | _ => exact agrees_fail _

end

end Copies

end Scripting
