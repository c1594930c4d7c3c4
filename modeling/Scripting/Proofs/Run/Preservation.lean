import Scripting.Proofs.Run.Invariant

/-!
# Evaluation keeps its invariants

Acts first, then calls and objects, then the evaluator along the tree: each computation passes only
through states that store values with `P` everywhere, and gives an outcome that the invariant
allows. The body of a call is covered by an assumption on the function that runs bodies, which
`runBody` meets at every depth.
-/

namespace Scripting

namespace Eval

variable {Q : Value → Prop}

/-! ### Acts -/

theorem keeps_freshIdent : freshIdent.Keeps (State.Stores Q) fun _ => True :=
  Keeps.act fun _ hs => ⟨⟨hs.bindings, hs.properties⟩, trivial⟩

theorem keeps_printLine (line : String) :
    (printLine line).Keeps (State.Stores Q) fun _ => True :=
  Keeps.act fun _ hs => ⟨⟨hs.bindings, hs.properties⟩, trivial⟩

theorem keeps_lookup (scope : Nat) (name : String) :
    (lookup scope name).Keeps (State.Stores Q) fun r => ∀ v, r = some v → Q v :=
  Keeps.act fun _ hs => ⟨hs, fun _ hv => hs.bindings.get? hv⟩

theorem keeps_bindName (scope : Nat) (name : String) {v : Value} (hv : Q v) :
    (bindName scope name v).Keeps (State.Stores Q) fun _ => True :=
  Keeps.act fun _ hs => ⟨hs.withScopes (hs.bindings.set scope name hv), trivial⟩

theorem keeps_assignName (scope : Nat) (name : String) {v : Value} (hv : Q v) :
    (assignName scope name v).Keeps (State.Stores Q) fun _ => True := by
  refine Keeps.act fun s hs => ?_
  cases hS : s.scopes.assign? scope name v with
  | none => exact ⟨hs, trivial⟩
  | some S => exact ⟨hs.withScopes (hs.bindings.assign? hv hS), trivial⟩

theorem keeps_enterScope (outer : Nat) {table : Table Value} (ht : table.All Q) :
    (enterScope outer table).Keeps (State.Stores Q) fun _ => True :=
  Keeps.act fun _ hs => ⟨hs.withScopes (hs.bindings.addInside outer ht), trivial⟩

theorem keeps_rootScope : rootScope.Keeps (State.Stores Q) fun _ => True :=
  Keeps.act fun _ hs => ⟨hs.withScopes hs.bindings.addRoot, trivial⟩

theorem keeps_newObject (c : Class) {table : Table Value} (ht : table.All Q) :
    (newObject c table).Keeps (State.Stores Q) fun o => o.cls = c :=
  Keeps.act fun _ hs => ⟨hs.pushProperties ht, rfl⟩

theorem keeps_ownProperty? (o : Object) (name : String) :
    (ownProperty? o name).Keeps (State.Stores Q) fun r => ∀ v, r = some v → Q v :=
  Keeps.act fun _ hs => ⟨hs, fun _ hv => hs.property hv⟩

theorem keeps_setOwnProperty (o : Object) (name : String) {v : Value} (hv : Q v) :
    (setOwnProperty o name v).Keeps (State.Stores Q) fun _ => True :=
  Keeps.act fun _ hs => ⟨hs.setProperty o.ident name hv, trivial⟩

end Eval

namespace Invariant

open Eval

variable {P : Value → Prop} {E : RuntimeError → Prop} {p : Expr → Prop}

/-! ### Chaining -/

theorem keeps_outcome {x : Eval Value} (hx : x.Keeps (Safe P) (Answer P E)) :
    x.Keeps (Safe P) (Outcome P E) :=
  hx.mono fun _ h => .answer h

/-- A part that gives a value with `P` everywhere or a signal, and what uses the value. -/
theorem keeps_onValue {x : Eval Value} {f : Value → Eval Value}
    (hx : x.Keeps (Safe P) (Outcome P E))
    (hf : ∀ v, v.Everywhere P → (f v).Keeps (Safe P) (Outcome P E)) :
    (x.onValue f).Keeps (Safe P) (Outcome P E) := by
  refine hx.bind fun v hv => ?_
  cases hs : v.isSignal with
  | true =>
      rw [if_pos rfl]
      exact Keeps.pure hv
  | false =>
      rw [if_neg Bool.false_ne_true]
      exact hf v (hv.everywhere hs)

theorem keeps_onGathered {α : Type} {x : Eval (Except Value α)} {f : α → Eval Value}
    {R : Value → Prop} {G : α → Prop} (hx : x.Keeps (Safe P) (Gathered R G))
    (hf : ∀ a, G a → (f a).Keeps (Safe P) R) : (x.onGathered f).Keeps (Safe P) R := by
  refine hx.bind fun r hr => ?_
  cases r with
  | error signal => exact Keeps.pure hr
  | ok a => exact hf a hr

theorem keeps_fail (inv : Invariant P E p) (e : RuntimeError) (he : e ≠ .missingNode)
    (he' : ∀ printed, e ≠ .invalidTarget printed) : (fail e).Keeps (Safe P) (Answer P E) :=
  Keeps.pure (.failed (inv.runtime e he he'))

theorem keeps_newArray (inv : Invariant P E p) {vs : List Value}
    (h : ∀ v ∈ vs, v.Everywhere P) : (newArray vs).Keeps (Safe P) (Answer P E) :=
  keeps_freshIdent.bind fun i _ => Keeps.pure (.ordinary (inv.everywhere_array i h))

theorem keeps_newHash (inv : Invariant P E p) {pairs : List (Value × Value)}
    (h : ∀ pair ∈ pairs, pair.1.Everywhere P ∧ pair.2.Everywhere P) :
    (newHash pairs).Keeps (Safe P) (Answer P E) :=
  keeps_freshIdent.bind fun i _ => Keeps.pure (.ordinary (inv.everywhere_hash i h))

/-- Bodies with `p` everywhere are run within the invariant. -/
def KeepsBodies (P : Value → Prop) (E : RuntimeError → Prop) (p : Expr → Prop)
    (run : RunBody) : Prop :=
  ∀ (block : Block) (scope : Nat), Block.Forall p block →
    (run block scope).Keeps (Safe P) (Outcome P E)

/-! ### Callables -/

theorem everywhere_function (inv : Invariant P E p) {f : Closure} (h : f.literal.Forall p) :
    (Value.function f).Everywhere P :=
  (inv.function f).mpr h

theorem everywhere_class_of_subset (inv : Invariant P E p) {c k : Class}
    (hc : (Value.cls c).Everywhere P) (hsub : ∀ f ∈ k.closures, f ∈ c.closures) :
    (Value.cls k).Everywhere P :=
  (inv.cls k).mpr fun f hf => (inv.cls c).mp hc f (hsub f hf)

theorem everywhere_findMethod? (inv : Invariant P E p) {c : Class} {walk : Bool} {name : String}
    {f : Closure} {k : Class} (hc : (Value.cls c).Everywhere P)
    (h : c.findMethod? walk name = some (f, k)) :
    f.literal.Forall p ∧ (Value.cls k).Everywhere P := by
  obtain ⟨hf, hsub⟩ := Class.closures_findMethod? h
  exact ⟨(inv.cls c).mp hc f hf, inv.everywhere_class_of_subset hc hsub⟩

theorem everywhere_object (inv : Invariant P E p) {o : Object} :
    (Value.object o).Everywhere P ↔ (Value.cls o.cls).Everywhere P :=
  inv.object o

theorem everywhere_boundMethod (inv : Invariant P E p) {i : Nat} {f : Closure} {o : Object}
    {k : Class} : (Value.boundMethod i f o k).Everywhere P ↔
      f.literal.Forall p ∧ (Value.object o).Everywhere P ∧ (Value.cls k).Everywhere P :=
  inv.boundMethod i f o k

/-! ### Bindings of a call -/

theorem all_zip (params : List String) {args : List Value} (h : ∀ v ∈ args, v.Everywhere P) :
    Table.All (fun v : Value => v.Everywhere P) (params.zip args) := by
  intro row hrow
  exact h row.2 (List.of_mem_zip hrow).2

theorem all_callBindings (params : List String) {args : List Value} {receiver : Option Object}
    (hargs : ∀ v ∈ args, v.Everywhere P)
    (hreceiver : ∀ o, receiver = some o → (Value.object o).Everywhere P) :
    (callBindings params args receiver).All fun v => v.Everywhere P := by
  unfold callBindings
  split
  · exact Table.All.ofList (all_zip _ hargs)
  · next o rest =>
      have ho := hreceiver o rfl
      exact Table.All.ofList (((all_zip _ hargs).cons ho).cons ho)
  · next o _ =>
      exact Table.All.ofList ((all_zip _ hargs).cons (hreceiver o rfl))

theorem all_withSuper (inv : Invariant P E p) {table : Table Value} {owner : Class}
    (ht : table.All fun v => v.Everywhere P) (howner : (Value.cls owner).Everywhere P) :
    (withSuper table owner).All fun v => v.Everywhere P := by
  unfold withSuper
  cases hk : owner.superclass? with
  | none => exact ht
  | some k =>
      exact ht.set "super"
        (inv.everywhere_class_of_subset howner (Class.closures_superclass hk))

/-! ### Names, properties and objects -/

section

variable (inv : Invariant P E p) {options : Options} {run : RunBody}
include inv

theorem keeps_ofLookup {x : Eval (Option Value)} {e : RuntimeError}
    (hx : x.Keeps (Safe P) fun r => ∀ v, r = some v → v.Everywhere P)
    (he : e ≠ .missingNode) (he' : ∀ printed, e ≠ .invalidTarget printed) :
    Keeps (Safe P) (Answer P E) (do
      match ← x with
      | some value => pure value
      | none => fail e) := by
  refine hx.bind fun r hr => ?_
  cases r with
  | none => exact inv.keeps_fail e he he'
  | some v => exact Keeps.pure (.ordinary (hr v rfl))

theorem keeps_readName (scope : Nat) (name : String) :
    (readName scope name).Keeps (Safe P) (Answer P E) := by
  unfold readName
  cases Builtin.ofName? name with
  | some b => exact Keeps.pure (.ordinary (inv.builtin b))
  | none => exact inv.keeps_ofLookup (keeps_lookup scope name) (by simp) (by simp)

theorem keeps_readProperty (scope : Nat) {target : Value} (name : String)
    (ht : target.Everywhere P) :
    (readProperty options scope target name).Keeps (Safe P) (Answer P E) := by
  unfold readProperty
  split
  · next o =>
      refine (keeps_ownProperty? o name).bind fun r hr => ?_
      cases r with
      | some v => exact Keeps.pure (.ordinary (hr v rfl))
      | none =>
          dsimp only
          split
          · next method owner hfound =>
              obtain ⟨hmethod, howner⟩ :=
                inv.everywhere_findMethod? (inv.everywhere_object.mp ht) hfound
              exact keeps_freshIdent.bind fun i _ =>
                Keeps.pure (.ordinary (inv.everywhere_boundMethod.mpr ⟨hmethod, ht, howner⟩))
          · exact inv.keeps_fail _ (by simp) (by simp)
  · next i rows =>
      apply Keeps.pure
      cases hget : Table.get? rows name with
      | none => exact .ordinary inv.null
      | some pair =>
          have hall : Table.All (fun pair : Value × Value =>
              pair.1.Everywhere P ∧ pair.2.Everywhere P) rows :=
            ((Value.everywhere_hash i rows).mp ht).2
          exact .ordinary (hall.get? hget).2
  · next c =>
      split
      · split
        · exact inv.keeps_fail _ (by simp) (by simp)
        · next method owner hfound =>
            obtain ⟨hmethod, howner⟩ := inv.everywhere_findMethod? ht hfound
            refine (keeps_lookup scope "this").bind fun r hr => ?_
            split
            · next o =>
                exact keeps_freshIdent.bind fun i _ => Keeps.pure
                  (.ordinary (inv.everywhere_boundMethod.mpr ⟨hmethod, hr _ rfl, howner⟩))
            · exact Keeps.pure (.ordinary (inv.everywhere_function hmethod))
      · exact inv.keeps_fail _ (by simp) (by simp)
  · exact inv.keeps_fail _ (by simp) (by simp)

theorem keeps_builtin (b : Builtin) {args : List Value} (hargs : ∀ v ∈ args, v.Everywhere P) :
    (b.call args).Keeps (Safe P) (Answer P E) := by
  have hprint : (args.forM fun arg => printLine arg.inspect).Keeps (Safe P) fun _ => True :=
    Keeps.forM (f := fun arg : Value => printLine arg.inspect)
      (fun arg => keeps_printLine arg.inspect) args
  unfold Builtin.call
  split
  · exact hprint.bind fun _ _ => Keeps.pure (.ordinary inv.null)
  · exact Keeps.pure (.ordinary (inv.length _))
  · exact Keeps.pure (.ordinary (inv.length _))
  · exact inv.keeps_fail _ (by simp) (by simp)
  · exact inv.keeps_fail _ (by simp) (by simp)
  · next i elements last =>
      apply inv.keeps_newArray
      intro v hv
      rcases List.mem_append.mp hv with hv | hv
      · have harray := hargs (.array i elements) List.mem_cons_self
        exact ((Value.everywhere_array i elements).mp harray).2 v hv
      · rw [List.mem_singleton] at hv
        exact hargs v (by simp [hv])
  · exact inv.keeps_fail _ (by simp) (by simp)
  · exact inv.keeps_fail _ (by simp) (by simp)

/-! ### Calls -/

variable (hrun : KeepsBodies P E p run)
include hrun

theorem keeps_callFunction {f : Closure} {args : List Value} {receiver : Option Object}
    {owner : Option Class} (hf : f.literal.Forall p) (hargs : ∀ v ∈ args, v.Everywhere P)
    (hreceiver : ∀ o, receiver = some o → (Value.object o).Everywhere P)
    (howner : ∀ c, owner = some c → (Value.cls c).Everywhere P) :
    (callFunction options run f args receiver owner).Keeps (Safe P) (Answer P E) := by
  have htable := all_callBindings f.params hargs hreceiver
  have hbody : Block.Forall p f.body := FunctionLiteral.forall_body hf
  have hscoped : ∀ table : Table Value, (table.All fun v => v.Everywhere P) →
      Keeps (Safe P) (Answer P E) (do
        let scope ← enterScope f.scope table
        let result ← run f.body scope
        pure result.unwrapReturn) := by
    intro table ht
    refine (keeps_enterScope f.scope ht).bind fun scope _ => ?_
    refine (hrun f.body scope hbody).bind fun result hresult => ?_
    exact Keeps.pure (inv.answer_unwrapReturn hresult)
  unfold callFunction
  cases owner with
  | none => exact hscoped _ htable
  | some c =>
      refine hscoped _ ?_
      dsimp only
      split
      · exact inv.all_withSuper htable (howner c rfl)
      · exact htable

theorem keeps_callValue {callee : Value} {args : List Value} {receiver : Option Object}
    (hcallee : callee.Everywhere P) (hargs : ∀ v ∈ args, v.Everywhere P)
    (hreceiver : ∀ o, receiver = some o → (Value.object o).Everywhere P) :
    (callValue options run callee args receiver).Keeps (Safe P) (Answer P E) := by
  unfold callValue
  split
  · next i method o owner =>
      obtain ⟨hmethod, ho, howner⟩ := inv.everywhere_boundMethod.mp hcallee
      refine inv.keeps_callFunction hrun hmethod hargs ?_ ?_
      · rintro o' ⟨⟩
        exact ho
      · rintro c ⟨⟩
        exact howner
  · next f =>
      refine inv.keeps_callFunction hrun ((inv.function f).mp hcallee) hargs hreceiver ?_
      intro c hc
      obtain ⟨o, ho, rfl⟩ := Option.map_eq_some_iff.mp hc
      exact inv.everywhere_object.mp (hreceiver o ho)
  · next b => exact inv.keeps_builtin b hargs
  · exact inv.keeps_fail _ (by simp) (by simp)

theorem keeps_makeObject {callee : Value} {args : List Value} (hcallee : callee.Everywhere P)
    (hargs : ∀ v ∈ args, v.Everywhere P) :
    (makeObject options run callee args).Keeps (Safe P) (Answer P E) := by
  unfold makeObject
  split
  · next c =>
      have hmethods : Table.All (fun v : Value => v.Everywhere P)
          (c.own.methods.map fun row => (row.1, Value.function row.2)) := by
        intro row hrow
        obtain ⟨method, hmethod, rfl⟩ := List.mem_map.mp hrow
        have hmem : method.2 ∈ c.closures :=
          (c.mem_closures _).mpr ⟨c.own, List.mem_cons_self, method, hmethod, rfl⟩
        exact inv.everywhere_function ((inv.cls c).mp hcallee _ hmem)
      refine (keeps_newObject c hmethods).bind fun o ho => ?_
      have hobject : (Value.object o).Everywhere P :=
        inv.everywhere_object.mpr (ho ▸ hcallee)
      split
      · exact Keeps.pure (.ordinary hobject)
      · next method owner hfound =>
          obtain ⟨hmethod, howner⟩ := inv.everywhere_findMethod? hcallee hfound
          have hbody : Block.Forall p method.body := FunctionLiteral.forall_body hmethod
          have hreceiver : ∀ o', some o = some o' → (Value.object o').Everywhere P := by
            rintro o' ⟨⟩
            exact hobject
          have htable := all_callBindings method.params hargs hreceiver
          refine (keeps_enterScope method.scope (inv.all_withSuper htable howner)).bind
            fun scope _ => ?_
          refine (hrun method.body scope hbody).bind fun result hresult => ?_
          split
          · next herror =>
              cases result with
              | failed e =>
                  rcases hresult with ⟨h | h⟩
                  · cases inv.not_isSignal h
                  · exact Keeps.pure (.failed h)
              | _ => cases herror
          · exact Keeps.pure (.ordinary hobject)
  · exact inv.keeps_fail _ (by simp) (by simp)

end

end Invariant

end Scripting
