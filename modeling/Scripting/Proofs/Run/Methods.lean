import Scripting.Proofs.Run.Agreement
import Scripting.Proofs.Run.Frame

/-!
# Objects keep their methods

An object that a script makes has, from the start of its constructor on, a property for every method
of its own class: it gets the methods as properties when it is made, a class never changes, and no
property is ever removed. Looking up a property that an object does not have therefore finds no
method of its own class either, so where ancestors are not searched no bound method ever comes up.

What a value has to satisfy depends on the state: the object it is must have its methods there.
`State.Supports` says so, and it is kept along every evaluation, since a state only grows.
-/

namespace Scripting

/-- The types that the wording of an error names. -/
def RuntimeError.types : RuntimeError → List TypeTag
  | assignToNonInstance type | notIndexable type | superclassNotClass type | notAClass type
  | noProperties type | notAFunction type | lenNotSupported type | pushNotArray type => [type]
  | unknownUnary _ operand => [operand]
  | unknownBinary left _ right | typeMismatch left _ right => [left, right]
  | missingNode | identifierNotFound _ | thisNotFound | superNotFound | invalidTarget _
  | divisionByZero | propertyNotFound _ | wrongArgumentCount _ _ => []

theorem RuntimeError.types_of_isBare {error : RuntimeError} (h : error.IsBare) :
    error.types = [] := by
  cases error <;> first | rfl | exact absurd h id

namespace State

/-- Nothing is removed from `s` to `t`. -/
abbrev Grows : State → State → Prop :=
  Frame fun _ _ => True

/-- An object has a property for every method of its own class. -/
def Equips (s : State) (o : Object) : Prop :=
  ∀ name ∈ o.cls.own.methods.names, s.hasProperty o.ident name = true

/-- What a value may be in a state: objects have their methods and, unless methods are looked up in
ancestors too (`walks`), there are no bound methods and no errors that name their type. -/
def Supports (walks : Bool) (s : State) : Value → Prop
  | .object o => s.Equips o
  | .boundMethod _ _ o _ => walks = true ∧ s.Equips o
  | .failed e => ∀ type ∈ e.types, walks = true ∨ type ≠ .boundMethod
  | _ => True

/-- A value that a state supports, with all that is in it. -/
abbrev Holds (walks : Bool) (s : State) (v : Value) : Prop :=
  v.Everywhere (s.Supports walks)

/-- A state that supports all that it stores. -/
abbrev Sound (walks : Bool) (s : State) : Prop :=
  s.Stores (s.Holds walks)

variable {walks : Bool} {s t u : State}

theorem Equips.grow {o : Object} (h : s.Equips o) (hgrow : s.Grows t) : t.Equips o :=
  fun name hname => hgrow.properties _ name (h name hname)

theorem Supports.grow {v : Value} (h : s.Supports walks v) (hgrow : s.Grows t) :
    t.Supports walks v := by
  cases v with
  | object o => exact Equips.grow h hgrow
  | boundMethod i f o owner => exact ⟨h.1, h.2.grow hgrow⟩
  | _ => exact h

theorem Holds.grow {v : Value} (h : s.Holds walks v) (hgrow : s.Grows t) : t.Holds walks v :=
  h.mono fun _ hv => hv.grow hgrow

/-- A new object is given its methods. -/
theorem equips_newObject (s : State) (c : Class) :
    (s.withObject c).Equips ⟨s.properties.size, c⟩ := by
  intro name hname
  rw [hasProperty, withObject, Array.getElem?_push_size, Option.bind_some, Table.get?_isSome_iff]
  simpa [Table.names] using hname

/-- A property that an object does not have is no method of its class. -/
theorem Equips.findMethod?_eq_none {o : Object} (h : s.Equips o) {name : String}
    (hname : s.hasProperty o.ident name = false) : o.cls.findMethod? false name = none := by
  have hmethod : o.cls.own.methods.get? name = none := by
    rw [Table.get?_eq_none_iff]
    intro hmem
    cases hname.symm.trans (h name hmem)
  simp [Class.findMethod?, hmethod]

/-! ### Values -/

theorem Holds.type_ne {v : Value} (h : s.Holds walks v) :
    walks = true ∨ v.type ≠ .boundMethod := by
  have hv := h.head
  cases v with
  | boundMethod i f o owner => exact .inl hv.1
  | _ =>
      right
      intro htype
      cases htype

theorem holds_failed_of_nil {e : RuntimeError} (h : e.types = []) :
    s.Holds walks (.failed e) := by
  intro type htype
  rw [h] at htype
  cases htype

theorem holds_failed_of_type {e : RuntimeError} {v : Value} (hv : s.Holds walks v)
    (h : e.types = [v.type]) : s.Holds walks (.failed e) := by
  intro type htype
  rw [h] at htype
  exact List.mem_singleton.mp htype ▸ hv.type_ne

theorem holds_failed_of_types {e : RuntimeError} {v w : Value} (hv : s.Holds walks v)
    (hw : s.Holds walks w) (h : e.types = [v.type, w.type]) : s.Holds walks (.failed e) := by
  intro type htype
  rw [h] at htype
  rcases List.mem_cons.mp htype with rfl | htype
  · exact hv.type_ne
  · exact List.mem_singleton.mp htype ▸ hw.type_ne

theorem holds_array {i : Nat} {elements : List Value} :
    s.Holds walks (.array i elements) ↔ ∀ v ∈ elements, s.Holds walks v :=
  (Value.everywhere_array i elements).trans (and_iff_right trivial)

theorem holds_hash {i : Nat} {rows : List (String × Value × Value)} :
    s.Holds walks (.hash i rows) ↔
      Table.All (fun pair : Value × Value => s.Holds walks pair.1 ∧ s.Holds walks pair.2) rows :=
  (Value.everywhere_hash i rows).trans (and_iff_right trivial)

theorem holds_returned {v : Value} : s.Holds walks (.returned v) ↔ s.Holds walks v := by
  unfold Holds
  rw [Value.Everywhere]
  exact and_iff_right trivial

theorem Holds.unwrapReturn {v : Value} (h : s.Holds walks v) : s.Holds walks v.unwrapReturn := by
  cases v with
  | returned w => exact holds_returned.mp h
  | _ => exact h

theorem Holds.unary {v : Value} (h : s.Holds walks v) (op : String) :
    s.Holds walks (Value.unary op v) := by
  unfold Value.unary
  split
  · trivial
  · trivial
  · exact holds_failed_of_type h rfl

theorem holds_integerBinary (a : Int) (op : String) (b : Int) :
    s.Holds walks (Value.integerBinary a op b) := by
  have hfail (op : String) :
      s.Holds walks (.failed (.unknownBinary .integer op .integer)) :=
    holds_failed_of_types (v := .integer a) (w := .integer b) trivial trivial rfl
  unfold Value.integerBinary
  split
  case h_4 =>
    split
    · exact holds_failed_of_nil rfl
    · trivial
  case h_9 => exact hfail _
  all_goals trivial

theorem holds_stringBinary (a op b : String) : s.Holds walks (Value.stringBinary a op b) := by
  have hfail (op : String) :
      s.Holds walks (.failed (.unknownBinary .string op .string)) :=
    holds_failed_of_types (v := .string a) (w := .string b) trivial trivial rfl
  unfold Value.stringBinary
  split
  case h_4 => exact hfail _
  all_goals trivial

theorem Holds.binary {v w : Value} (hv : s.Holds walks v) (hw : s.Holds walks w) (op : String) :
    s.Holds walks (v.binary op w) := by
  unfold Value.binary
  split
  · exact holds_integerBinary _ op _
  · exact holds_stringBinary _ op _
  · split
    · exact holds_failed_of_types hv hw rfl
    · split
      · trivial
      · split
        · trivial
        · exact holds_failed_of_types hv hw rfl

theorem Holds.index {v : Value} (h : s.Holds walks v) (w : Value) :
    s.Holds walks (v.index w) := by
  unfold Value.index
  split
  · next i elements n =>
      split
      · cases hget : elements[n.toNat]? with
        | none => trivial
        | some u => exact holds_array.mp h u (List.mem_of_getElem? hget)
      · trivial
  · next _ i rows =>
      cases hget : Table.get? rows w.inspect with
      | none => trivial
      | some pair => exact ((holds_hash.mp h).get? hget).2
  · exact holds_failed_of_type h rfl

end State

namespace Eval

/-- What is kept along an evaluation: a state only grows, and it supports all that it stores. -/
abbrev Growth (walks : Bool) (s t : State) : Prop :=
  s.Grows t ∧ t.Sound walks

theorem growth_course (walks : Bool) : Course (Growth walks) where
  trans h h' := ⟨h.1.trans h'.1, h'.2⟩
  stay h := ⟨.refl _ _, h.2⟩

/-- Run on a state that supports all that it stores, a computation leads only to such states, and
what it gives is supported. -/
abbrev Sustains (walks : Bool) (x : Eval Value) (s : State) : Prop :=
  x.Follows (Growth walks) (State.Holds walks) s

section

variable {α β : Type} {walks : Bool} {s : State} {Q : State → α → Prop}

theorem sustains_pure {v : Value} (hs : s.Sound walks) (hv : s.Holds walks v) :
    (pure v : Eval Value).Sustains walks s :=
  Follows.pure ⟨.refl _ _, hs⟩ hv

/-- An act that only adds to the state and stores only what the state it leaves supports. -/
theorem grows_act {f : State → α × State} (hs : s.Sound walks) (hgrow : s.Grows (f s).2)
    (hstores : s.Stores ((f s).2.Holds walks) → (f s).2.Sound walks) (hQ : Q (f s).2 (f s).1) :
    (act f).Follows (Growth walks) Q s :=
  Follows.act ⟨.refl _ _, hs⟩ ⟨hgrow, hstores (hs.mono fun _ hv => hv.grow hgrow)⟩ hQ

theorem grows_freshIdent (hs : s.Sound walks) :
    freshIdent.Follows (Growth walks) (fun _ _ => True) s :=
  grows_act hs (.withIdent _) (fun h => ⟨h.bindings, h.properties⟩) trivial

theorem grows_printLine (hs : s.Sound walks) (line : String) :
    (printLine line).Follows (Growth walks) (fun _ _ => True) s := by
  refine grows_act hs ?_ (fun h => ⟨h.bindings, h.properties⟩) trivial
  rw [String.append_assoc]
  exact .withOutput _

theorem grows_lookup (hs : s.Sound walks) (scope : Nat) (name : String) :
    (lookup scope name).Follows (Growth walks) (fun t r => ∀ v ∈ r, t.Holds walks v) s :=
  grows_act hs (.refl _ _) id fun _ hv => hs.bindings.get? hv

theorem grows_bindName (hs : s.Sound walks) (scope : Nat) (name : String) {v : Value}
    (hv : s.Holds walks v) :
    (bindName scope name v).Follows (Growth walks) (fun _ _ => True) s := by
  have hgrow : s.Grows { s with scopes := s.scopes.set scope name v } := .bindName trivial v
  exact grows_act hs hgrow (fun h => h.withScopes (h.bindings.set scope name (hv.grow hgrow)))
    trivial

theorem grows_assignName (hs : s.Sound walks) (scope : Nat) (name : String) {v : Value}
    (hv : s.Holds walks v) :
    (assignName scope name v).Follows (Growth walks) (fun _ _ => True) s := by
  unfold assignName
  cases hS : s.scopes.assign? scope name v with
  | none =>
      refine grows_act hs ?_ ?_ trivial <;> rw [hS]
      · exact .refl _ _
      · exact id
  | some S =>
      have hgrow : s.Grows { s with scopes := S } := .assignName hS
      refine grows_act hs ?_ ?_ trivial <;> rw [hS]
      · exact hgrow
      · exact fun h => h.withScopes (h.bindings.assign? (hv.grow hgrow) hS)

theorem grows_enterScope (hs : s.Sound walks) (outer : Nat) {table : Table Value}
    (ht : table.All (s.Holds walks)) :
    (enterScope outer table).Follows (Growth walks) (fun _ _ => True) s := by
  have hgrow : s.Grows (s.withScope outer table) := .withScope _ _ _
  exact grows_act hs hgrow
    (fun h => h.withScopes (h.bindings.addInside outer (ht.mono fun _ hv => hv.grow hgrow)))
    trivial

/-- A new object has the methods of its class. -/
theorem grows_newObject (hs : s.Sound walks) (c : Class) :
    (newObject c (c.own.methods.map fun row => (row.1, .function row.2))).Follows (Growth walks)
      (fun t o => t.Equips o) s := by
  refine grows_act hs (.newObject _) (fun h => h.pushProperties ?_) (s.equips_newObject c)
  intro row hrow
  obtain ⟨method, -, rfl⟩ := List.mem_map.mp hrow
  trivial

theorem grows_ownProperty? (hs : s.Sound walks) (o : Object) (name : String) :
    (ownProperty? o name).Follows (Growth walks) (fun t r => (∀ v ∈ r, t.Holds walks v) ∧
      t.hasProperty o.ident name = r.isSome) s :=
  grows_act hs (.refl _ _) id ⟨fun _ hv => hs.property hv, rfl⟩

theorem grows_setOwnProperty (hs : s.Sound walks) (o : Object) (name : String) {v : Value}
    (hv : s.Holds walks v) :
    (setOwnProperty o name v).Follows (Growth walks) (fun _ _ => True) s := by
  have hgrow : s.Grows { s with properties := s.properties.modify o.ident (·.set name v) } :=
    .setProperty _ _ _
  exact grows_act hs hgrow (fun h => h.setProperty o.ident name (hv.grow hgrow)) trivial

theorem Follows.andThen {x : Eval α} {f : α → Eval Value}
    (hx : x.Follows (Growth walks) Q s)
    (hf : ∀ a t, s.Grows t → t.Sound walks → Q t a → (f a).Sustains walks t) :
    (x >>= f).Sustains walks s :=
  hx.bind (growth_course walks) fun a t ht ha => hf a t ht.1 ht.2 ha

theorem sustains_newArray (hs : s.Sound walks) {vs : List Value}
    (h : ∀ v ∈ vs, s.Holds walks v) : (newArray vs).Sustains walks s :=
  (grows_freshIdent hs).andThen fun _ _ hgrow ht _ =>
    sustains_pure ht (State.holds_array.mpr fun v hv => (h v hv).grow hgrow)

theorem sustains_newHash (hs : s.Sound walks) {pairs : List (Value × Value)}
    (h : ∀ pair ∈ pairs, s.Holds walks pair.1 ∧ s.Holds walks pair.2) :
    (newHash pairs).Sustains walks s := by
  refine (grows_freshIdent hs).andThen fun _ t hgrow ht _ => sustains_pure ht ?_
  refine State.holds_hash.mpr (Table.All.ofList ?_)
  intro row hrow
  obtain ⟨pair, hpair, rfl⟩ := List.mem_map.mp hrow
  exact ⟨(h pair hpair).1.grow hgrow, (h pair hpair).2.grow hgrow⟩

theorem sustains_lookupOrFail (hs : s.Sound walks) (scope : Nat) (name : String)
    {error : RuntimeError} (herror : error.IsBare) :
    (lookupOrFail scope name error).Sustains walks s := by
  refine (grows_lookup hs scope name).andThen fun r t _ ht hr => ?_
  cases r with
  | some v => exact sustains_pure ht (hr v rfl)
  | none => exact sustains_pure ht (State.holds_failed_of_nil (RuntimeError.types_of_isBare herror))

end

end Eval

open Eval

/-- Bodies sustain what a state supports. -/
def RunBody.Sustaining (walks : Bool) (run : RunBody) : Prop :=
  ∀ (block : Block) (scope : Nat) (s : State), s.Sound walks → (run block scope).Sustains walks s

section

variable {options : Options} {run : RunBody} {s : State}

/-- Where ancestors are not searched, reading a property of an object binds no method: the object
has all methods of its class as properties. -/
theorem sustains_readProperty (hs : s.Sound options.walksSuperclasses) (scope : Nat)
    {target : Value} (name : String) (ht : s.Holds options.walksSuperclasses target) :
    (readProperty options scope target name).Sustains options.walksSuperclasses s := by
  unfold readProperty
  split
  · next o =>
      refine (grows_ownProperty? hs o name).andThen fun r t hgrow hsound hr => ?_
      have ho : t.Equips o := State.Equips.grow ht hgrow
      cases r with
      | some v => exact sustains_pure hsound (hr.1 v rfl)
      | none =>
          dsimp only
          split
          · next method owner hfound =>
              have hwalks : options.walksSuperclasses = true := by
                by_contra hwalks
                rw [Bool.not_eq_true] at hwalks
                rw [hwalks, ho.findMethod?_eq_none hr.2] at hfound
                cases hfound
              refine (grows_freshIdent hsound).andThen fun i u hgrow' hsound' _ => ?_
              exact sustains_pure hsound' ⟨hwalks, ho.grow hgrow'⟩
          · exact sustains_pure hsound (State.holds_failed_of_nil rfl)
  · next i rows =>
      refine sustains_pure hs ?_
      cases hget : Table.get? rows name with
      | none => trivial
      | some pair => exact ((State.holds_hash.mp ht).get? hget).2
  · next c =>
      split
      · next hwalks =>
          split
          · exact sustains_pure hs (State.holds_failed_of_nil rfl)
          · next method owner hfound =>
              refine (grows_lookup hs scope "this").andThen fun r t _ hsound hr => ?_
              split
              · next o =>
                  have ho : t.Equips o := (hr _ rfl).head
                  refine (grows_freshIdent hsound).andThen fun i u hgrow hsound' _ => ?_
                  exact sustains_pure hsound' ⟨hwalks, ho.grow hgrow⟩
              · exact sustains_pure hsound trivial
      · exact sustains_pure hs (State.holds_failed_of_type ht rfl)
  · exact sustains_pure hs (State.holds_failed_of_type ht rfl)

theorem sustains_assignTo {walks : Bool} (hs : s.Sound walks) (scope : Nat) (name : String)
    {v : Value} (hv : s.Holds walks v) : (assignTo options scope name v).Sustains walks s := by
  refine (grows_assignName hs scope name hv).andThen fun found t hgrow ht _ => ?_
  split
  · exact sustains_pure ht (hv.grow hgrow)
  · split
    · exact sustains_pure ht (State.holds_failed_of_nil rfl)
    · exact (grows_bindName ht scope name (hv.grow hgrow)).andThen fun _ u hgrow' hu _ =>
        sustains_pure hu (hv.grow (hgrow.trans hgrow'))

theorem sustains_assignProperty {walks : Bool} (hs : s.Sound walks) {target : Value}
    (ht : s.Holds walks target) (name : String) {v : Value} (hv : s.Holds walks v) :
    (assignProperty target name v).Sustains walks s := by
  cases target with
  | object o =>
      exact (grows_setOwnProperty hs o name hv).andThen fun _ _ hgrow hsound _ =>
        sustains_pure hsound (hv.grow hgrow)
  | _ => exact sustains_pure hs (State.holds_failed_of_type ht rfl)

theorem sustains_builtin {walks : Bool} (hs : s.Sound walks) (b : Builtin) {args : List Value}
    (hargs : ∀ v ∈ args, s.Holds walks v) : (b.call args).Sustains walks s := by
  have hprint : (args.forM fun arg => printLine arg.inspect).Follows (Growth walks)
      (fun _ _ => True) s :=
    Follows.forM (growth_course walks) args ⟨.refl _ _, hs⟩ fun arg t ht =>
      grows_printLine ht.2 arg.inspect
  unfold Builtin.call
  split
  · exact hprint.andThen fun _ _ _ ht _ => sustains_pure ht trivial
  · exact sustains_pure hs trivial
  · exact sustains_pure hs trivial
  · next arg _ _ =>
      exact sustains_pure hs (State.holds_failed_of_type (hargs arg List.mem_cons_self) rfl)
  · exact sustains_pure hs (State.holds_failed_of_nil rfl)
  · next i elements last =>
      refine sustains_newArray hs fun v hv => ?_
      rcases List.mem_append.mp hv with hv | hv
      · exact State.holds_array.mp (hargs (.array i elements) List.mem_cons_self) v hv
      · rw [List.mem_singleton.mp hv]
        exact hargs last (List.mem_cons_of_mem _ List.mem_cons_self)
  · next first _ _ =>
      exact sustains_pure hs (State.holds_failed_of_type (hargs first List.mem_cons_self) rfl)
  · exact sustains_pure hs (State.holds_failed_of_nil rfl)

theorem sustains_bindClass {walks : Bool} (hs : s.Sound walks) (scope : Nat) (name : String)
    (methods : List (String × FunctionLiteral)) (ancestors : List ClassBody) :
    (Part.bindClass scope name methods ancestors).Sustains walks s := by
  have hclosures : (methods.mapM fun row : String × FunctionLiteral =>
      return (row.1,
        { ident := ← freshIdent, literal := row.2, scope := scope : Closure })).Follows
        (Growth walks) (fun _ _ => True) s :=
    Follows.mapM (growth_course walks) methods ⟨.refl _ _, hs⟩ fun row _ t ht =>
      (grows_freshIdent ht.2).bind (growth_course walks) fun _ _ hu _ =>
        Follows.pure ⟨.refl _ _, hu.2⟩ trivial
  refine hclosures.andThen fun closures t _ ht _ => ?_
  refine (grows_freshIdent ht).andThen fun ident u _ hu _ => ?_
  have hclass : u.Holds walks (.cls ⟨⟨ident, name, Table.ofList closures⟩, ancestors⟩) := trivial
  exact (grows_bindName hu scope name hclass).andThen fun _ _ _ hsound _ =>
    sustains_pure hsound trivial

/-! ### Calls -/

theorem all_withSuper_of_holds {walks : Bool} {table : Table Value} (owner : Class)
    (ht : table.All (s.Holds walks)) : (withSuper table owner).All (s.Holds walks) := by
  unfold withSuper
  cases owner.superclass? with
  | none => exact ht
  | some parent => exact ht.set "super" trivial

theorem all_callTable_of_holds {walks : Bool} (f : Closure) {args : List Value}
    {receiver : Option Object} (owner : Option Class) (hargs : ∀ v ∈ args, s.Holds walks v)
    (hreceiver : ∀ o ∈ receiver, s.Equips o) :
    (callTable options f args receiver owner).All (s.Holds walks) := by
  have hbindings : (callBindings f.params args receiver).All (s.Holds walks) :=
    Invariant.all_callBindings f.params hargs hreceiver
  cases owner with
  | none => exact hbindings
  | some c =>
      unfold callTable
      dsimp only
      split
      · exact all_withSuper_of_holds c hbindings
      · exact hbindings

theorem sustains_callFunction {walks : Bool} (hrun : run.Sustaining walks) (hs : s.Sound walks)
    (f : Closure) {args : List Value} {receiver : Option Object} (owner : Option Class)
    (hargs : ∀ v ∈ args, s.Holds walks v) (hreceiver : ∀ o ∈ receiver, s.Equips o) :
    (callFunction options run f args receiver owner).Sustains walks s := by
  rw [callFunction_eq]
  have htable : (callTable options f args receiver owner).All (s.Holds walks) :=
    all_callTable_of_holds f owner hargs hreceiver
  refine (grows_enterScope hs f.scope htable).andThen fun scope t _ ht _ => ?_
  refine (hrun f.body scope t ht).andThen fun v u _ hu hv => ?_
  exact sustains_pure hu hv.unwrapReturn

theorem sustains_callValue {walks : Bool} (hrun : run.Sustaining walks) (hs : s.Sound walks)
    {callee : Value} {args : List Value} {receiver : Option Object}
    (hcallee : s.Holds walks callee) (hargs : ∀ v ∈ args, s.Holds walks v)
    (hreceiver : ∀ o ∈ receiver, s.Equips o) :
    (callValue options run callee args receiver).Sustains walks s := by
  unfold callValue
  split
  · next i method o owner =>
      refine sustains_callFunction hrun hs method (some owner) hargs fun o' ho' => ?_
      exact Option.mem_some_iff.mp ho' ▸ hcallee.head.2
  · next f => exact sustains_callFunction hrun hs f _ hargs hreceiver
  · next b => exact sustains_builtin hs b hargs
  · exact sustains_pure hs (State.holds_failed_of_type hcallee rfl)

theorem sustains_makeObject {walks : Bool} (hrun : run.Sustaining walks) (hs : s.Sound walks)
    {callee : Value} {args : List Value} (hcallee : s.Holds walks callee)
    (hargs : ∀ v ∈ args, s.Holds walks v) :
    (makeObject options run callee args).Sustains walks s := by
  unfold makeObject
  split
  · next c =>
      refine (grows_newObject hs c).andThen fun o t hgrow ht ho => ?_
      split
      · exact sustains_pure ht ho
      · next method owner _ =>
          have hbindings : (callBindings method.params args (some o)).All (t.Holds walks) := by
            refine Invariant.all_callBindings method.params (fun v hv => (hargs v hv).grow hgrow) ?_
            rintro o' ⟨⟩
            exact ho
          refine (grows_enterScope ht method.scope
            (all_withSuper_of_holds owner hbindings)).andThen fun scope u hgrow' hu _ => ?_
          refine (hrun method.body scope u hu).andThen fun result w hgrow'' hw hresult => ?_
          split
          · exact sustains_pure hw hresult
          · exact sustains_pure hw ((ho.grow hgrow').grow hgrow'')
  · exact sustains_pure hs (State.holds_failed_of_type hcallee rfl)

end

/-! ### Nodes -/

namespace Part

/-- What may be evaluated in a state: any node, and the properties of values that it supports. -/
def Supported (walks : Bool) (s : State) : Part → Prop
  | property target _ => s.Holds walks target
  | _ => True

variable {options : Options} {run : RunBody} {scope : Nat} {s : State}

theorem sustains_lastStep (hrun : run.Sustaining options.walksSuperclasses)
    (hs : s.Sound options.walksSuperclasses) {node : Part} {vs : List Value} {x : Eval Value}
    (hnode : node.Supported options.walksSuperclasses s)
    (hvs : ∀ v ∈ vs, s.Holds options.walksSuperclasses v)
    (h : LastStep options run scope node vs x) : x.Sustains options.walksSuperclasses s := by
  cases h with
  | @bare v hv =>
      refine sustains_pure hs ?_
      cases v <;> trivial
  | given hv => exact sustains_pure hs (hvs _ hv)
  | returned hv =>
      refine sustains_pure hs (State.holds_returned.mpr ?_)
      rcases hv with rfl | hv
      · trivial
      · exact hvs _ hv
  | builtin b => exact sustains_pure hs trivial
  | index htarget _ => exact sustains_pure hs ((hvs _ htarget).index _)
  | unary hv => exact sustains_pure hs ((hvs _ hv).unary _)
  | binary hleft hright => exact sustains_pure hs ((hvs _ hleft).binary (hvs _ hright) _)
  | fail herror =>
      exact sustains_pure hs (State.holds_failed_of_nil (RuntimeError.types_of_isBare herror))
  | noClass hv => exact sustains_pure hs (State.holds_failed_of_type (hvs _ hv) rfl)
  | array => exact sustains_newArray hs hvs
  | hash =>
      exact sustains_newHash hs fun pair hpair =>
        have hmem := mem_of_mem_inPairs hpair
        ⟨hvs _ hmem.1, hvs _ hmem.2⟩
  | function literal =>
      exact (grows_freshIdent hs).andThen fun _ _ _ ht _ => sustains_pure ht trivial
  | lookup name herror => exact sustains_lookupOrFail hs scope name herror
  | property name htarget =>
      rcases htarget with htarget | rfl
      · exact sustains_readProperty hs scope name (hvs _ htarget)
      · exact sustains_readProperty hs scope name hnode
  | assignName name hv => exact sustains_assignTo hs scope name (hvs _ hv)
  | assignProperty name hv htarget =>
      exact sustains_assignProperty hs (hvs _ htarget) name (hvs _ hv)
  | new hcallee hargs =>
      exact sustains_makeObject hrun hs (hvs _ hcallee) fun v hv => hvs v (hargs hv)
  | call hfunction hargs hreceiver =>
      exact sustains_callValue hrun hs (hvs _ hfunction) (fun v hv => hvs v (hargs hv))
        fun o ho => (hvs _ (hreceiver o ho)).head
  | bind _ hv =>
      exact (grows_bindName hs scope _ (hvs _ hv)).andThen fun _ _ _ ht _ =>
        sustains_pure ht trivial
  | bindClass _ _ => exact sustains_bindClass hs scope _ _ _

theorem held_growth (hrun : run.Sustaining options.walksSuperclasses) :
    Held options run scope
      (fun s node => s.Sound options.walksSuperclasses ∧
        node.Supported options.walksSuperclasses s)
      (fun _ => Growth options.walksSuperclasses) (State.Holds options.walksSuperclasses) where
  course _ := growth_course _
  start h := ⟨.refl _ _, h.1⟩
  admitted := by
    rintro node s t ⟨-, hnode⟩ ⟨hgrow, ht⟩
    refine ⟨ht, ?_⟩
    cases node with
    | property target name => exact State.Holds.grow hnode hgrow
    | _ => trivial
  value h hv := hv.grow h.1
  part_admitted := by
    rintro node part s vs ⟨hs, -⟩ hvs hpart
    refine ⟨hs, ?_⟩
    cases part with
    | property target name => exact hvs target (List.mem_of_head? (of_property_mem hpart).1)
    | _ => trivial
  part_course _ h := h
  finish h hvs hlength := sustains_lastStep hrun h.1 h.2 hvs (lastStep_finish hlength)

end Part

theorem runBody_sustaining (options : Options) (depth : Nat) :
    (runBody options depth).Sustaining options.walksSuperclasses := by
  induction depth with
  | zero => exact fun _ _ s hs => Follows.tooDeep ⟨.refl _ s, hs⟩
  | succ depth ih =>
      intro block scope s hs
      have h : ((Part.block block).eval options (runBody options depth) scope).Sustains
          options.walksSuperclasses s := (Part.held_growth ih).follows_eval ⟨hs, trivial⟩
      exact h

/-- Evaluation leads only to states that support all that they store, and gives only values that
they support. -/
theorem Part.sustains_eval (options : Options) (depth scope : Nat) {node : Part} {s : State}
    (hs : s.Sound options.walksSuperclasses)
    (hnode : node.Supported options.walksSuperclasses s) :
    (node.eval options (runBody options depth) scope).Sustains options.walksSuperclasses s :=
  (held_growth (runBody_sustaining options depth)).follows_eval ⟨hs, hnode⟩

theorem sustains_evalProgram (options : Options) (depth scope : Nat) (program : Block) {s : State}
    (hs : s.Sound options.walksSuperclasses) :
    (Block.evalProgram options (runBody options depth) scope program).Sustains
      options.walksSuperclasses s := by
  have h : ((Part.block program).eval options (runBody options depth) scope).Sustains
      options.walksSuperclasses s := Part.sustains_eval options depth scope hs trivial
  exact h.andThen fun _ _ _ ht hv => sustains_pure ht hv.unwrapReturn

end Scripting
