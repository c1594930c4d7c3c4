import Scripting.Proofs.Run.Children
import Scripting.Proofs.Run.Ending
import Scripting.Proofs.Run.Invariant
import Scripting.Proofs.Run.Started
import Scripting.Proofs.Run.Watch

/-!
# What scripts are held to

A conduct says which nodes a script may evaluate, which names it may bind, which integers may come
up in it, which functions it may make and what is watched of objects. From what it asks of single
nodes follows, along all evaluations that one starts, what holds of all that a state stores
(`Conduct.Tidy`): values are made of such integers, functions and objects, and a scope binds such
names, but for the two that every method call binds. `this` is always an object there and `super`
always a class.
-/

namespace Scripting

open Eval

/-- What is asked of the nodes, the names, the integers, the functions and the objects of scripts.
What may be measured is asked of strings and lists only: their lengths come up as integers. -/
structure Conduct extends Watch where
  node : Part → Prop
  name : String → Prop
  integer : Int → Prop
  literal : FunctionLiteral → Prop
  measured : Value → Prop
  child : ∀ {n part}, node n → part ∈ n.children → node part
  int : ∀ {n digits}, node (.expr (.int n digits)) → integer n
  letIn : ∀ {n value}, node (.stmt (.letIn n value)) → name n
  assign : ∀ {n value}, node (.expr (.assign (.ident n) value)) → name n
  classDef : ∀ {n superclass methods}, node (.stmt (.classDef n superclass methods)) →
    name n ∧ ∀ row ∈ methods, literal row.2
  function : ∀ {l}, node (.expr (.function l)) → literal l
  params : ∀ {l}, literal l → ∀ p ∈ l.params, name p
  body : ∀ {l}, literal l → node (.block l.body)
  wrapped : ∀ n, integer (wrap64 n)
  array : ∀ {i elements}, measured (.array i elements) → integer elements.length
  string : ∀ {s}, measured (.string s) → integer s.length

namespace Conduct

variable (κ : Conduct)

/-- What is asked of an object. -/
def HoldsObject (s : State) (o : Object) : Prop :=
  (∀ f ∈ o.cls.closures, κ.literal f.literal) ∧ κ.object s o

/-- What is asked of a value by itself. The class of a bound method has it as a method. -/
def Holds (s : State) : Value → Prop
  | .integer n => κ.integer n
  | .function f => κ.literal f.literal
  | .cls c => ∀ f ∈ c.closures, κ.literal f.literal
  | .object o => κ.HoldsObject s o
  | .boundMethod _ f o owner => κ.literal f.literal ∧ κ.HoldsObject s o ∧
      (∀ g ∈ owner.closures, κ.literal g.literal) ∧ ∃ name, owner.own.methods.get? name = some f
  | _ => True

/-- What is asked of a value and of all that is in it. -/
abbrev Safe (s : State) (v : Value) : Prop :=
  v.Everywhere (κ.Holds s)

/-- What is asked of a binding: that the name may be bound, or that it is one of those that a method
call binds. -/
def Binds (s : State) (name : String) (v : Value) : Prop :=
  κ.Safe s v ∧ (κ.name name ∨ (name = "this" ∧ ∃ o, v = .object o) ∨
    (name = "super" ∧ ∃ c, v = .cls c))

/-- What is asked of all that a state stores. -/
structure Tidy (s : State) : Prop where
  bindings : ∀ k, ∀ row ∈ s.scopes.bindings k, κ.Binds s row.1 row.2
  properties : ∀ (i : Nat) (h : i < s.properties.size), Table.All (κ.Safe s) s.properties[i]

/-- Which nodes are admitted: those of the tree, and the properties of safe values. -/
def Admits (s : State) : Part → Prop
  | .property target _ => κ.Safe s target
  | n => κ.node n

/-- Where an evaluation may lead. -/
structure Leads (s t : State) : Prop where
  tidy : κ.Tidy t
  retains : s.Retains κ.name t
  stays : κ.stays s t

/-- Run on a tidy state, a computation leads only to tidy states, and what it gives is safe. -/
abbrev Keeps (x : Eval Value) (s : State) : Prop :=
  x.Follows κ.Leads κ.Safe s

variable {κ : Conduct} {α β : Type} {s t : State} {v : Value}

theorem Tidy.stay (hs : κ.Tidy s) : κ.Leads s s :=
  ⟨hs, .refl _ _, κ.refl s⟩

theorem course : Course κ.Leads where
  trans h h' := ⟨h'.tidy, h.retains.trans h'.retains, κ.trans h.stays h'.stays⟩
  stay h := h.tidy.stay

/-! ### What holds goes on to hold -/

theorem Holds.of_stays (h : κ.Holds s v) (hstays : κ.stays s t) : κ.Holds t v := by
  cases v with
  | object o => exact ⟨h.1, κ.keeps hstays h.2⟩
  | boundMethod i f o owner => exact ⟨h.1, ⟨h.2.1.1, κ.keeps hstays h.2.1.2⟩, h.2.2⟩
  | _ => exact h

theorem Safe.of_stays (h : κ.Safe s v) (hstays : κ.stays s t) : κ.Safe t v :=
  h.mono fun _ hv => hv.of_stays hstays

theorem Safe.leads (h : κ.Safe s v) (hlead : κ.Leads s t) : κ.Safe t v :=
  Safe.of_stays h hlead.stays

theorem Safe.all_leads {vs : List Value} (h : ∀ v ∈ vs, κ.Safe s v) (hlead : κ.Leads s t) :
    ∀ v ∈ vs, κ.Safe t v :=
  fun v hv => Safe.leads (h v hv) hlead

theorem Binds.of_stays {name : String} (h : κ.Binds s name v) (hstays : κ.stays s t) :
    κ.Binds t name v :=
  ⟨Safe.of_stays h.1 hstays, h.2⟩

theorem Tidy.stores (hs : κ.Tidy s) : s.Stores (κ.Safe s) :=
  ⟨fun k row hrow => (hs.bindings k row hrow).1, hs.properties⟩

/-- What a name stands for is bound to it somewhere. -/
theorem Tidy.binds_of_get? (hs : κ.Tidy s) {scope : Nat} {name : String}
    (h : s.scopes.get? scope name = some v) : κ.Binds s name v := by
  obtain ⟨k, -, hk⟩ := List.exists_of_findSome?_eq_some h
  exact hs.bindings k _ (Table.mem_of_get? hk)

/-- Where the objects stay as they are, only the bindings have to be looked at. -/
theorem Tidy.of_properties (hs : κ.Tidy s) (h : t.properties = s.properties)
    (hbindings : ∀ k, ∀ row ∈ t.scopes.bindings k, κ.Binds s row.1 row.2) : κ.Tidy t := by
  have hstays : κ.stays s t := κ.same h
  refine ⟨fun k row hrow => (hbindings k row hrow).of_stays hstays, fun i hi => ?_⟩
  have hproperties : ∀ table ∈ t.properties, Table.All (κ.Safe s) table := by
    rw [h]
    intro table htable
    obtain ⟨i, hi, rfl⟩ := Array.getElem_of_mem htable
    exact hs.properties i hi
  exact (hproperties _ (Array.getElem_mem hi)).mono fun _ hv => Safe.of_stays hv hstays

theorem Tidy.of_scopes (hs : κ.Tidy s) (hscopes : t.scopes = s.scopes)
    (hproperties : t.properties = s.properties) : κ.Tidy t :=
  hs.of_properties hproperties (by rw [hscopes]; exact hs.bindings)

theorem Tidy.bind (hs : κ.Tidy s) (scope : Nat) {name : String} (h : κ.Binds s name v) :
    κ.Tidy { s with scopes := s.scopes.set scope name v } := by
  refine hs.of_properties rfl fun k row hrow => ?_
  rw [Scopes.bindings_set] at hrow
  split at hrow
  · rcases Table.mem_set hrow with rfl | hrow
    · exact h
    · exact hs.bindings scope row hrow
  · exact hs.bindings k row hrow

theorem Tidy.withScope (hs : κ.Tidy s) (outer : Nat) {table : Table Value}
    (htable : ∀ row ∈ table, κ.Binds s row.1 row.2) : κ.Tidy (s.withScope outer table) := by
  refine hs.of_properties rfl fun k row hrow => ?_
  rw [State.withScope, Scopes.bindings_addInside] at hrow
  split at hrow
  · exact htable row hrow
  · exact hs.bindings k row hrow

/-- A state with other properties is tidy if these are safe there. -/
theorem Tidy.withProperties (hs : κ.Tidy s) {properties : Array (Table Value)}
    (hstays : κ.stays s { s with properties })
    (h : s.Stores (κ.Safe { s with properties }) →
      ({ s with properties } : State).Stores (κ.Safe { s with properties })) :
    κ.Tidy { s with properties } :=
  ⟨fun k row hrow => (hs.bindings k row hrow).of_stays hstays,
    (h (hs.stores.mono fun _ hv => Safe.of_stays hv hstays)).properties⟩

/-! ### Values -/

theorem safe_failed (e : RuntimeError) : κ.Safe s (.failed e) := trivial

theorem safe_array {i : Nat} {elements : List Value} :
    κ.Safe s (.array i elements) ↔ ∀ v ∈ elements, κ.Safe s v :=
  (Value.everywhere_array i elements).trans (and_iff_right trivial)

theorem safe_hash {i : Nat} {rows : List (String × Value × Value)} :
    κ.Safe s (.hash i rows) ↔
      Table.All (fun pair : Value × Value => κ.Safe s pair.1 ∧ κ.Safe s pair.2) rows :=
  (Value.everywhere_hash i rows).trans (and_iff_right trivial)

theorem safe_returned : κ.Safe s (.returned v) ↔ κ.Safe s v := by
  unfold Safe
  rw [Value.Everywhere]
  exact and_iff_right trivial

theorem safe_unwrapReturn (h : κ.Safe s v) : κ.Safe s v.unwrapReturn := by
  cases v with
  | returned w => exact safe_returned.mp h
  | _ => exact h

theorem safe_of_isBare (hv : v.IsBare) (hne : ∀ n, v ≠ .integer n) : κ.Safe s v := by
  cases v with
  | integer n => exact absurd rfl (hne n)
  | string s => trivial
  | boolean b => trivial
  | null => trivial
  | _ => exact absurd hv id

theorem safe_unary (op : String) (v : Value) : κ.Safe s (Value.unary op v) := by
  unfold Value.unary
  split
  · trivial
  · exact κ.wrapped _
  · trivial

theorem safe_binary (v : Value) (op : String) (w : Value) : κ.Safe s (v.binary op w) := by
  unfold Value.binary
  split
  · unfold Value.integerBinary
    split
    case h_4 =>
      split
      · trivial
      · exact κ.wrapped _
    case h_1 | h_2 | h_3 => exact κ.wrapped _
    all_goals trivial
  · unfold Value.stringBinary
    split <;> trivial
  · split
    · trivial
    · split
      · trivial
      · split <;> trivial

theorem safe_index (h : κ.Safe s v) (w : Value) : κ.Safe s (v.index w) := by
  unfold Value.index
  split
  · next i elements n =>
      split
      · cases hget : elements[n.toNat]? with
        | none => trivial
        | some u => exact safe_array.mp h u (List.mem_of_getElem? hget)
      · trivial
  · next _ i rows =>
      cases hget : Table.get? rows w.inspect with
      | none => trivial
      | some pair => exact ((safe_hash.mp h).get? hget).2
  · trivial

/-- A method that is found is a method of a safe class, and a safe class has it. -/
theorem safe_boundMethod {i : Nat} {f : Closure} {o : Object} {c owner : Class} {walk : Bool}
    {name : String} (hc : κ.Safe s (.cls c)) (ho : κ.Safe s (.object o))
    (h : c.findMethod? walk name = some (f, owner)) : κ.Safe s (.boundMethod i f o owner) := by
  obtain ⟨hf, hsub⟩ := Class.closures_findMethod? h
  obtain ⟨k, -, hk⟩ := List.exists_of_findSome?_eq_some h
  obtain ⟨method, hmethod, heq⟩ := Option.map_eq_some_iff.mp hk
  cases heq
  exact ⟨hc f hf, ho, fun g hg => hc g (hsub g hg), name, hmethod⟩

theorem safe_method {f : Closure} {c owner : Class} {walk : Bool} {name : String}
    (hc : κ.Safe s (.cls c)) (h : c.findMethod? walk name = some (f, owner)) :
    κ.literal f.literal ∧ κ.Safe s (.cls owner) := by
  obtain ⟨hf, hsub⟩ := Class.closures_findMethod? h
  exact ⟨hc f hf, fun g hg => hc g (hsub g hg)⟩

/-! ### The bindings of a call -/

theorem binds_callBindings {params : List String} {args : List Value} {receiver : Option Object}
    (hparams : ∀ p ∈ params, κ.name p) (hargs : ∀ v ∈ args, κ.Safe s v)
    (hreceiver : ∀ o ∈ receiver, κ.Safe s (.object o)) :
    ∀ row ∈ callBindings params args receiver, κ.Binds s row.1 row.2 := by
  have hzip {params : List String} (hparams : ∀ p ∈ params, κ.name p) :
      ∀ row ∈ params.zip args, κ.Binds s row.1 row.2 := fun row hrow =>
    ⟨hargs row.2 (List.of_mem_zip hrow).2, .inl (hparams row.1 (List.of_mem_zip hrow).1)⟩
  intro row hrow
  unfold callBindings at hrow
  split at hrow
  · exact hzip hparams row (Table.mem_of_mem_ofList hrow)
  · next o rest =>
      have ho := hreceiver o rfl
      obtain ⟨hself, hrest⟩ := List.forall_mem_cons.mp hparams
      rcases List.mem_cons.mp (Table.mem_of_mem_ofList hrow) with rfl | hrow
      · exact ⟨ho, .inr (.inl ⟨rfl, o, rfl⟩)⟩
      rcases List.mem_cons.mp hrow with rfl | hrow
      · exact ⟨ho, .inl hself⟩
      · exact hzip hrest row hrow
  · next o _ =>
      rcases List.mem_cons.mp (Table.mem_of_mem_ofList hrow) with rfl | hrow
      · exact ⟨hreceiver o rfl, .inr (.inl ⟨rfl, o, rfl⟩)⟩
      · exact hzip hparams row hrow

theorem binds_withSuper {table : Table Value} {owner : Class}
    (htable : ∀ row ∈ table, κ.Binds s row.1 row.2) (howner : κ.Safe s (.cls owner)) :
    ∀ row ∈ withSuper table owner, κ.Binds s row.1 row.2 := by
  intro row hrow
  unfold withSuper at hrow
  split at hrow
  · exact htable row hrow
  · next parent hparent =>
      have hsafe : κ.Safe s (.cls parent) := fun f hf =>
        howner f (Class.closures_superclass hparent f hf)
      rcases Table.mem_set hrow with rfl | hrow
      · exact ⟨hsafe, .inr (.inr ⟨rfl, parent, rfl⟩)⟩
      · exact htable row hrow

theorem binds_callTable {options : Options} {f : Closure} {args : List Value}
    {receiver : Option Object} {owner : Option Class} (hf : κ.literal f.literal)
    (hargs : ∀ v ∈ args, κ.Safe s v) (hreceiver : ∀ o ∈ receiver, κ.Safe s (.object o))
    (howner : ∀ c ∈ owner, κ.Safe s (.cls c)) :
    ∀ row ∈ callTable options f args receiver owner, κ.Binds s row.1 row.2 := by
  have hbindings := binds_callBindings (κ.params hf) hargs hreceiver
  cases owner with
  | none => exact hbindings
  | some c =>
      unfold callTable
      dsimp only
      split
      · exact binds_withSuper hbindings (howner c rfl)
      · exact hbindings

/-! ### Acts -/

section

variable {Q : State → α → Prop}

theorem keeps_pure (hs : κ.Tidy s) (hv : κ.Safe s v) : κ.Keeps (pure v : Eval Value) s :=
  Follows.pure hs.stay hv

/-- An act that writes neither to scopes nor to objects leads to a tidy state. -/
theorem leads_act {f : State → α × State} (hs : κ.Tidy s) (hscopes : (f s).2.scopes = s.scopes)
    (hproperties : (f s).2.properties = s.properties) (hQ : Q (f s).2 (f s).1) :
    (act f).Follows κ.Leads Q s :=
  Follows.act hs.stay
    ⟨hs.of_scopes hscopes hproperties, .of_scopes hscopes, κ.same hproperties⟩ hQ

theorem leads_freshIdent (hs : κ.Tidy s) :
    freshIdent.Follows κ.Leads (fun _ _ => True) s :=
  leads_act hs rfl rfl trivial

theorem leads_printLine (hs : κ.Tidy s) (line : String) :
    (printLine line).Follows κ.Leads (fun _ _ => True) s :=
  leads_act hs rfl rfl trivial

theorem leads_lookup (hs : κ.Tidy s) (scope : Nat) (name : String) :
    (lookup scope name).Follows κ.Leads (fun t r => ∀ v ∈ r, κ.Safe t v) s :=
  leads_act hs rfl rfl fun _ hv => (hs.binds_of_get? hv).1

theorem leads_ownProperty? (hs : κ.Tidy s) (o : Object) (name : String) :
    (ownProperty? o name).Follows κ.Leads (fun t r => ∀ v ∈ r, κ.Safe t v) s :=
  leads_act hs rfl rfl fun _ hv => hs.stores.property hv

theorem leads_set (hs : κ.Tidy s) (scope : Nat) {name : String} (hname : κ.name name)
    (hv : κ.Safe s v) : κ.Leads s { s with scopes := s.scopes.set scope name v } :=
  ⟨hs.bind scope ⟨hv, .inl hname⟩, .bind hname scope v, κ.same rfl⟩

theorem leads_bindName (hs : κ.Tidy s) (scope : Nat) {name : String} (hname : κ.name name)
    (hv : κ.Safe s v) : (bindName scope name v).Follows κ.Leads (fun _ _ => True) s :=
  Follows.act hs.stay (leads_set hs scope hname hv) trivial

theorem leads_assignName (hs : κ.Tidy s) (scope : Nat) {name : String} (hname : κ.name name)
    (hv : κ.Safe s v) : (assignName scope name v).Follows κ.Leads (fun _ _ => True) s := by
  unfold assignName
  cases hS : s.scopes.assign? scope name v with
  | none =>
      refine Follows.act hs.stay ?_ trivial
      rw [hS]
      exact hs.stay
  | some S =>
      obtain ⟨i, -, rfl⟩ := Option.map_eq_some_iff.mp hS
      refine Follows.act hs.stay ?_ trivial
      rw [hS]
      exact leads_set hs i hname hv

theorem leads_withScope (hs : κ.Tidy s) (outer : Nat) {table : Table Value}
    (htable : ∀ row ∈ table, κ.Binds s row.1 row.2) : κ.Leads s (s.withScope outer table) :=
  ⟨hs.withScope outer htable, .withScope s outer table, κ.same rfl⟩

/-- What holds of its class holds of a new object. -/
theorem leads_withObject (hs : κ.Tidy s) {c : Class} (hc : κ.Safe s (.cls c)) :
    κ.Leads s (s.withObject c) ∧ κ.Safe (s.withObject c) (.object ⟨s.properties.size, c⟩) := by
  have hmethods : Table.All (κ.Safe (s.withObject c))
      (c.own.methods.map fun row => (row.1, Value.function row.2)) := by
    intro row hrow
    obtain ⟨method, hmethod, rfl⟩ := List.mem_map.mp hrow
    exact hc _ ((c.mem_closures _).mpr ⟨c.own, List.mem_cons_self, method, hmethod, rfl⟩)
  have htidy : κ.Tidy (s.withObject c) :=
    hs.withProperties (κ.grown s c) fun h => h.pushProperties hmethods
  exact ⟨⟨htidy, .of_scopes rfl, κ.grown s c⟩, hc, κ.made s c⟩

theorem leads_setOwnProperty (hs : κ.Tidy s) {o : Object} {name : String} (hfree : κ.free o name)
    (hv : κ.Safe s v) : (setOwnProperty o name v).Follows κ.Leads (fun _ _ => True) s := by
  have hstays := κ.assigned hfree s v
  refine Follows.act hs.stay ⟨hs.withProperties hstays fun h => ?_, .of_scopes rfl, hstays⟩ trivial
  exact h.setProperty o.ident name (Safe.of_stays hv hstays)

theorem andThen {x : Eval α} {f : α → Eval β} {R : State → β → Prop}
    (hx : x.Follows κ.Leads Q s) (hf : ∀ a t, κ.Leads s t → Q t a → (f a).Follows κ.Leads R t) :
    (x >>= f).Follows κ.Leads R s :=
  hx.bind course hf

end

theorem keeps_newArray (hs : κ.Tidy s) {vs : List Value} (h : ∀ v ∈ vs, κ.Safe s v) :
    κ.Keeps (newArray vs) s :=
  andThen (leads_freshIdent hs) fun _ _ ht _ =>
    keeps_pure ht.tidy (safe_array.mpr (Safe.all_leads h ht))

theorem keeps_newHash (hs : κ.Tidy s) {pairs : List (Value × Value)}
    (h : ∀ pair ∈ pairs, κ.Safe s pair.1 ∧ κ.Safe s pair.2) : κ.Keeps (newHash pairs) s := by
  refine andThen (leads_freshIdent hs) fun _ t ht _ => keeps_pure ht.tidy ?_
  refine safe_hash.mpr (Table.All.ofList ?_)
  intro row hrow
  obtain ⟨pair, hpair, rfl⟩ := List.mem_map.mp hrow
  exact ⟨Safe.leads (h pair hpair).1 ht, Safe.leads (h pair hpair).2 ht⟩

theorem keeps_lookupOrFail (hs : κ.Tidy s) (scope : Nat) (name : String) (error : RuntimeError) :
    κ.Keeps (lookupOrFail scope name error) s := by
  refine andThen (leads_lookup hs scope name) fun r t ht hr => ?_
  cases r with
  | some v => exact keeps_pure ht.tidy (hr v rfl)
  | none => exact keeps_pure ht.tidy (safe_failed _)

section

variable {options : Options} {run : RunBody}

theorem keeps_readProperty (hs : κ.Tidy s) (scope : Nat) {target : Value} (name : String)
    (htarget : κ.Safe s target) : κ.Keeps (readProperty options scope target name) s := by
  unfold readProperty
  split
  · next o =>
      refine andThen (leads_ownProperty? hs o name) fun r t ht hr => ?_
      cases r with
      | some v => exact keeps_pure ht.tidy (hr v rfl)
      | none =>
          dsimp only
          split
          · next method owner hfound =>
              refine andThen (leads_freshIdent ht.tidy) fun i u hu _ => keeps_pure hu.tidy ?_
              have ho : κ.Safe u (.object o) := (htarget.leads ht).leads hu
              exact safe_boundMethod ho.1 ho hfound
          · exact keeps_pure ht.tidy (safe_failed _)
  · next i rows =>
      refine keeps_pure hs ?_
      cases hget : Table.get? rows name with
      | none => trivial
      | some pair => exact ((safe_hash.mp htarget).get? hget).2
  · next c =>
      split
      · split
        · exact keeps_pure hs (safe_failed _)
        · next method owner hfound =>
            refine andThen (leads_lookup hs scope "this") fun r t ht hr => ?_
            split
            · next o =>
                exact andThen (leads_freshIdent ht.tidy) fun i u hu _ => keeps_pure hu.tidy
                  (safe_boundMethod ((htarget.leads ht).leads hu) (Safe.leads (hr _ rfl) hu) hfound)
            · exact keeps_pure ht.tidy (safe_method (htarget.leads ht) hfound).1
      · exact keeps_pure hs (safe_failed _)
  · exact keeps_pure hs (safe_failed _)

theorem keeps_assignTo (hs : κ.Tidy s) (scope : Nat) {name : String} (hname : κ.name name)
    (hv : κ.Safe s v) : κ.Keeps (assignTo options scope name v) s := by
  refine andThen (leads_assignName hs scope hname hv) fun found t ht _ => ?_
  split
  · exact keeps_pure ht.tidy (Safe.leads hv ht)
  · split
    · exact keeps_pure ht.tidy (safe_failed _)
    · exact andThen (leads_bindName ht.tidy scope hname (Safe.leads hv ht)) fun _ u hu _ =>
        keeps_pure hu.tidy (Safe.leads (Safe.leads hv ht) hu)

theorem keeps_assignProperty (hs : κ.Tidy s) {target : Value} {name : String}
    (hfree : ∀ o, target = .object o → κ.free o name) (hv : κ.Safe s v) :
    κ.Keeps (assignProperty target name v) s := by
  cases target with
  | object o =>
      exact andThen (leads_setOwnProperty hs (hfree o rfl) hv) fun _ _ ht _ =>
        keeps_pure ht.tidy (Safe.leads hv ht)
  | _ => exact keeps_pure hs (safe_failed _)

/-- The length of a string or a list that may be measured may come up. -/
theorem keeps_builtin (hs : κ.Tidy s) (b : Builtin) {args : List Value}
    (hargs : ∀ v ∈ args, κ.Safe s v) (hmeasured : ∀ v ∈ args, κ.measured v) :
    κ.Keeps (b.call args) s := by
  have hprint : (args.forM fun arg => printLine arg.inspect).Follows κ.Leads
      (fun _ _ => True) s :=
    Follows.forM course args hs.stay fun arg t ht => leads_printLine ht.tidy arg.inspect
  unfold Builtin.call
  split
  · exact andThen hprint fun _ _ ht _ => keeps_pure ht.tidy trivial
  · exact keeps_pure hs (κ.array (hmeasured _ List.mem_cons_self))
  · exact keeps_pure hs (κ.string (hmeasured _ List.mem_cons_self))
  · exact keeps_pure hs (safe_failed _)
  · exact keeps_pure hs (safe_failed _)
  · next i elements last =>
      refine keeps_newArray hs fun v hv => ?_
      rcases List.mem_append.mp hv with hv | hv
      · exact safe_array.mp (hargs (.array i elements) List.mem_cons_self) v hv
      · rw [List.mem_singleton.mp hv]
        exact hargs last (List.mem_cons_of_mem _ List.mem_cons_self)
  · exact keeps_pure hs (safe_failed _)
  · exact keeps_pure hs (safe_failed _)

theorem keeps_bindClass (hs : κ.Tidy s) (scope : Nat) {name : String}
    {methods : List (String × FunctionLiteral)} {ancestors : List ClassBody}
    (hname : κ.name name) (hmethods : ∀ row ∈ methods, κ.literal row.2)
    (hancestors : ∀ k ∈ ancestors, ∀ row ∈ k.methods, κ.literal row.2.literal) :
    κ.Keeps (Part.bindClass scope name methods ancestors) s := by
  have hclosures : ∀ (methods : List (String × FunctionLiteral)),
      (∀ row ∈ methods, κ.literal row.2) → ∀ s : State, κ.Tidy s →
      (methods.mapM fun row : String × FunctionLiteral => return (row.1,
        { ident := ← freshIdent, literal := row.2, scope := scope : Closure })).Follows κ.Leads
        (fun _ (rows : List (String × Closure)) => ∀ row ∈ rows, κ.literal row.2.literal) s := by
    intro methods
    induction methods with
    | nil => exact fun _ s hs => Follows.pure hs.stay fun _ h => nomatch h
    | cons row methods ih =>
        intro hmethods s hs
        obtain ⟨hrow, hrest⟩ := List.forall_mem_cons.mp hmethods
        rw [List.mapM_cons]
        have hfirst : Follows κ.Leads (fun _ made => κ.literal made.2.literal)
            (do return (row.1,
              { ident := ← freshIdent, literal := row.2, scope := scope : Closure })) s :=
          andThen (leads_freshIdent hs) fun _ _ ht _ => Follows.pure ht.tidy.stay hrow
        refine andThen hfirst fun made t ht hmade => ?_
        exact andThen (ih hrest t ht.tidy) fun rows u hu hrows =>
          Follows.pure hu.tidy.stay (List.forall_mem_cons.mpr ⟨hmade, hrows⟩)
  refine andThen (hclosures methods hmethods s hs) fun rows t ht hrows => ?_
  refine andThen (leads_freshIdent ht.tidy) fun ident u hu _ => ?_
  have hclass : κ.Safe u (.cls ⟨⟨ident, name, Table.ofList rows⟩, ancestors⟩) := by
    intro f hf
    obtain ⟨k, hk, row, hrow, rfl⟩ := (Class.mem_closures _ f).mp hf
    rcases List.mem_cons.mp hk with rfl | hk
    · exact hrows row (Table.mem_of_mem_ofList hrow)
    · exact hancestors k hk row hrow
  exact andThen (leads_bindName hu.tidy scope hname hclass) fun _ w hw _ =>
    keeps_pure hw.tidy trivial

end

end Conduct

end Scripting
