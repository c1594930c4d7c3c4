import Mathlib.Data.List.Basic
import Scripting.Proofs.Run.Calls
import Scripting.Proofs.Run.Counterpart
import Scripting.Proofs.Run.Preservation
import Scripting.Proofs.Run.TwoRuns

/-!
# Computations of two runs

Two computations of values agree when, on corresponding states, they give corresponding values and
leave corresponding states; a comparison may let the runs part behind an error of the first. Here is
what agrees whatever the options are: reading a name, making lists and maps, built-in functions, the
bindings of a call and the making of a class.
-/

namespace Scripting

namespace Comparison

variable {K : Comparison}

/-- Evaluations in two runs correspond. -/
abbrev Agrees (K : Comparison) (x y : Eval Value) : Prop :=
  x.Corresponds K.States K.Excused K.Values y

theorem agrees_fail (e : RuntimeError) : K.Agrees (Eval.fail e) (Eval.fail e) :=
  Eval.Corresponds.pure (values_of_isPlain trivial)

theorem agrees_plain {v : Value} (h : v.IsPlain) : K.Agrees (pure v) (pure v) :=
  Eval.Corresponds.pure (values_of_isPlain h)

theorem Excused.isSignal {v : Value} (h : K.Excused v) : v.isSignal = true := by
  obtain ⟨-, herror⟩ := h
  cases v <;> first | rfl | cases herror

theorem Excused.unwrapReturn {v : Value} (h : K.Excused v) : K.Excused v.unwrapReturn := by
  obtain ⟨hparts, herror⟩ := h
  cases v <;> first | exact ⟨hparts, herror⟩ | cases herror

theorem Agrees.onValue {x y : Eval Value} {f g : Value → Eval Value} (hx : K.Agrees x y)
    (hf : ∀ v, K.Holds v → K.Agrees (f v) (g (v.rename K.shift))) :
    K.Agrees (x.onValue f) (y.onValue g) := by
  refine Eval.Corresponds.bind hx ?_ ?_
  · rintro v w ⟨hv, rfl⟩
    rw [Value.isSignal_rename]
    split
    · exact Eval.Corresponds.pure ⟨hv, rfl⟩
    · exact hf v hv
  · exact fun v hv => ⟨v, if_pos hv.isSignal, hv⟩

/-- Calls and programs give the value of a `return`. -/
theorem Agrees.unwrapReturn {x y : Eval Value} (h : K.Agrees x y) :
    K.Agrees (x >>= fun v => pure v.unwrapReturn) (y >>= fun v => pure v.unwrapReturn) := by
  refine Eval.Corresponds.bind h ?_ ?_
  · rintro v _ ⟨hv, rfl⟩
    rw [Value.unwrapReturn_rename]
    exact Eval.Corresponds.pure ⟨holds_unwrapReturn hv, rfl⟩
  · exact fun v hv => ⟨v.unwrapReturn, rfl, hv.unwrapReturn⟩

/-- A lookup whose answer is the result, where there is one. -/
theorem agrees_ofLookup {x y : Eval (Option Value)} (e : RuntimeError)
    (h : x.Matches K.States K.Answers y) :
    K.Agrees
      (do
        match ← x with
        | some value => pure value
        | none => Eval.fail e)
      (do
        match ← y with
        | some value => pure value
        | none => Eval.fail e) := by
  refine h.bind fun a b hab => ?_
  cases hab with
  | none => exact agrees_fail e
  | some hv => exact Eval.Corresponds.pure hv

theorem agrees_readName {name : String} (hname : K.hidden name = false) (scope : Nat) :
    K.Agrees (readName scope name) (readName (K.shift.scope scope) name) := by
  unfold readName
  cases Builtin.ofName? name with
  | some b => exact agrees_plain trivial
  | none => exact agrees_ofLookup _ (lookup_matches hname scope)

theorem agrees_newArray {vs : List Value} (h : ∀ v ∈ vs, K.Holds v) :
    K.Agrees (Eval.newArray vs) (Eval.newArray (vs.map (Value.rename K.shift))) := by
  refine freshIdent_matches.bind ?_
  rintro i _ rfl
  refine Eval.Corresponds.pure ⟨holds_array.mpr h, ?_⟩
  rw [Value.rename_array]

theorem agrees_newHash {pairs : List (Value × Value)}
    (h : ∀ pair ∈ pairs, K.Holds pair.1 ∧ K.Holds pair.2) :
    K.Agrees (Eval.newHash pairs)
      (Eval.newHash (pairs.map fun pair =>
        (pair.1.rename K.shift, pair.2.rename K.shift))) := by
  refine freshIdent_matches.bind ?_
  rintro i _ rfl
  refine Eval.Corresponds.pure ⟨?_, ?_⟩
  · refine holds_hash.mpr (Table.All.ofList (Q := fun pair : Value × Value =>
      K.Holds pair.1 ∧ K.Holds pair.2) ?_)
    intro row hrow
    obtain ⟨pair, hpair, rfl⟩ := List.mem_map.mp hrow
    exact h pair hpair
  · rw [Value.rename, Value.renameRows_eq_mapContents, ← Table.ofList_mapContents]
    simp [Table.mapContents, Function.comp_def]

theorem holds_index {v : Value} (hv : K.Holds v) (w : Value) : K.Holds (v.index w) := by
  unfold Value.index
  split
  · next i elements n =>
      split
      · cases hget : elements[n.toNat]? with
        | none => exact holds_of_isPlain trivial
        | some u => exact holds_array.mp hv u (List.mem_of_getElem? hget)
      · exact holds_of_isPlain trivial
  · next _ i rows =>
      cases hget : Table.get? rows w.inspect with
      | none => exact holds_of_isPlain trivial
      | some pair =>
          have hall : Table.All (fun pair : Value × Value =>
              K.Holds pair.1 ∧ K.Holds pair.2) rows := holds_hash.mp hv
          exact (hall.get? hget).2
  · exact holds_of_isPlain trivial

theorem agrees_assignProperty {target : Value} (name : String) {v : Value} (hv : K.Holds v) :
    K.Agrees (assignProperty target name v)
      (assignProperty (target.rename K.shift) name (v.rename K.shift)) := by
  cases target with
  | object o =>
      refine (setOwnProperty_matches o name ⟨hv, rfl⟩).bind fun _ _ _ => ?_
      exact Eval.Corresponds.pure ⟨hv, rfl⟩
  | _ => exact agrees_fail _

theorem agrees_print (args : List Value) :
    K.Agrees (Builtin.print.call args) (Builtin.print.call (args.map (Value.rename K.shift))) := by
  refine Eval.Matches.bind (Eval.Matches.forM (fun v => ?_) args) fun _ _ _ => ?_
  · rw [Value.inspect_rename]
    exact printLine_matches v.inspect
  · exact agrees_plain trivial

/-- Agreement is a relation of the kind that last steps are shown for. -/
theorem relates : Relates K.shift K.Holds K.Agrees where
  plain := holds_of_isPlain
  element hv hu := holds_array.mp hv _ hu
  index position hv := holds_index hv position
  returned hv := holds_returned.mpr hv
  given hv := Eval.Corresponds.pure ⟨hv, rfl⟩
  newArray := agrees_newArray
  newHash := agrees_newHash
  print := agrees_print

/-! ### Admitted parts -/

/-- What the first run may evaluate: admitted nodes, and properties of values that it may hold. -/
def AdmitsPart (K : Comparison) : Part → Prop
  | .property target _ => K.Holds target
  | node => ∀ n ∈ node.nodes, K.Admits n

theorem AdmitsPart.of_mem_parts {node part : Part} {vs : List Value} (h : K.AdmitsPart node)
    (hvs : ∀ v ∈ vs, K.Holds v) (hpart : part ∈ node.parts vs) : K.AdmitsPart part := by
  have hnodes : ∀ n ∈ part.nodes, K.Admits n := by
    intro n hn
    have hmem := Part.mem_nodes_of_mem_parts hpart hn
    cases node with
    | property target name => cases hpart
    | _ => exact h n hmem
  cases part with
  | property target name => exact hvs target (List.mem_of_head? (Part.of_property_mem hpart).1)
  | _ => exact hnodes

theorem AdmitsPart.expr {e : Expr} (h : K.AdmitsPart (.expr e)) : K.Admits (.expr e) := by
  refine h _ ?_
  rw [Part.nodes, Part.nodes_expr]
  exact List.mem_cons_self

theorem AdmitsPart.stmt {s : Stmt} (h : K.AdmitsPart (.stmt s)) : K.Admits (.stmt s) := by
  refine h _ ?_
  rw [Part.nodes, Part.nodes_stmt]
  exact List.mem_cons_self

/-! ### Bindings of a call -/

theorem holds_callBindings (params : List String) {args : List Value} {receiver : Option Object}
    (hargs : ∀ v ∈ args, K.Holds v) (hreceiver : ∀ o ∈ receiver, K.HoldsClass o.cls) :
    (callBindings params args receiver).All K.Holds :=
  Invariant.all_callBindings params hargs fun o ho => holds_object.mpr (hreceiver o ho)

theorem holds_withSuper {table : Table Value} {owner : Class} (ht : table.All K.Holds)
    (howner : K.HoldsClass owner) : (withSuper table owner).All K.Holds := by
  unfold withSuper
  cases hk : owner.superclass? with
  | none => exact ht
  | some k => exact ht.set "super" (holds_cls.mpr (howner.superclass hk))

theorem holds_callTable (options : Options) (f : Closure) {args : List Value}
    {receiver : Option Object} {owner : Option Class} (hargs : ∀ v ∈ args, K.Holds v)
    (hreceiver : ∀ o ∈ receiver, K.HoldsClass o.cls) (howner : ∀ c ∈ owner, K.HoldsClass c) :
    (callTable options f args receiver owner).All K.Holds := by
  have hbindings := holds_callBindings f.params hargs hreceiver
  cases owner with
  | none => exact hbindings
  | some c =>
      unfold callTable
      simp only
      split
      · exact holds_withSuper hbindings (howner c rfl)
      · exact hbindings

theorem holds_constructorTable (method : Closure) {args : List Value} {o : Object} {owner : Class}
    (hargs : ∀ v ∈ args, K.Holds v) (ho : K.HoldsClass o.cls) (howner : K.HoldsClass owner) :
    (constructorTable method args o owner).All K.Holds :=
  holds_withSuper (holds_callBindings method.params hargs fun _ h =>
    Option.mem_some_iff.mp h ▸ ho) howner

/-- Tables that are the same up to the numbers agree in what counts. -/
theorem tables_mapContents (table : Table Value) :
    K.Tables table (table.mapContents (Value.rename K.shift)) := rfl

/-- A hidden `super` does not count. -/
theorem Tables.withSuper {table table' : Table Value} (h : K.Tables table table')
    (hsuper : K.hidden "super" = true) (owner : Class) :
    K.Tables table (withSuper table' owner) := by
  unfold Scripting.withSuper
  cases owner.superclass? with
  | none => exact h
  | some parent =>
      unfold Tables
      rw [Table.restrict_set, hsuper]
      exact h

/-! ### Classes -/

theorem closures_match (scope : Nat) (methods : List (String × FunctionLiteral)) :
    Eval.Matches K.States
      (fun as bs => as.map (fun row => (row.1, row.2.literal)) = methods ∧
        bs = as.map fun row => (row.1, row.2.rename K.shift))
      (methods.mapM fun row => return (row.1,
        { ident := ← Eval.freshIdent, literal := row.2, scope := scope : Closure }))
      (methods.mapM fun row => return (row.1,
        { ident := ← Eval.freshIdent, literal := row.2, scope := K.shift.scope scope : Closure })) := by
  refine Eval.Matches.mapM (fun row => ?_) methods
  refine freshIdent_matches.bind ?_
  rintro i _ rfl
  exact Eval.Corresponds.pure ⟨rfl, rfl⟩

theorem agrees_bindClass (scope : Nat) (name : String)
    {methods : List (String × FunctionLiteral)} {ancestors : List ClassBody}
    (hclass : ∀ ident (closures : List (String × Closure)),
      closures.map (fun row => (row.1, row.2.literal)) = methods →
        K.HoldsClass ⟨⟨ident, name, Table.ofList closures⟩, ancestors⟩) :
    K.Agrees (Part.bindClass scope name methods ancestors)
      (Part.bindClass (K.shift.scope scope) name methods
        (ancestors.map (ClassBody.rename K.shift))) := by
  refine (closures_match scope methods).bind ?_
  rintro closures _ ⟨hclosures, rfl⟩
  refine freshIdent_matches.bind ?_
  rintro ident _ rfl
  have hvalues : K.Values (.cls ⟨⟨ident, name, Table.ofList closures⟩, ancestors⟩)
      (.cls ⟨⟨K.shift.ident ident, name,
          Table.ofList (closures.map fun row => (row.1, row.2.rename K.shift))⟩,
        ancestors.map (ClassBody.rename K.shift)⟩) := by
    refine ⟨holds_cls.mpr (hclass ident closures hclosures), ?_⟩
    have hmethods := Table.ofList_mapContents (Closure.rename K.shift) closures
    rw [Table.mapContents] at hmethods
    rw [hmethods]
    rfl
  refine (bindName_matches scope name hvalues).bind fun _ _ _ => ?_
  exact agrees_plain trivial

end Comparison

end Scripting
