import Scripting.Proofs.Run.Abiding
import Scripting.Proofs.Scopes.Lookup
import Scripting.Proofs.Value.Definitions

/-!
# Methods that are run for objects

A node runs a method for an object where it calls a bound method, where it calls a function as a
property of an object, and where it makes an object whose class has a constructor.
`Part.invocation?` is the method with what it is called with: the arguments, the object and the
class that it was found on. Where methods are looked up in ancestors, the scope of the method binds
`this` to that object and `super` to the superclass of that class (`Invocation.get?_table`).
-/

namespace Scripting

/-- A method with what it is called with: the arguments, the object and the class that it was found
on. -/
structure Invocation where
  method : Closure
  args : List Value
  object : Object
  owner : Class

/-- The bindings under which a method runs. -/
def Invocation.table (i : Invocation) : Table Value :=
  constructorTable i.method i.args i.object i.owner

/-- What the call of a value runs for an object: a bound method brings its object along, and a
function runs for the object whose property it was. -/
def Value.invocation? (callee : Value) (args : List Value) (receiver : Option Object) :
    Option Invocation :=
  match callee with
  | .boundMethod _ method o owner => some ⟨method, args, o, owner⟩
  | .function f => receiver.map fun o => ⟨f, args, o, o.cls⟩
  | _ => none

/-- What the making of an object runs for it. -/
def Value.construction? (options : Options) (callee : Value) (args : List Value) (s : State) :
    Option Invocation :=
  match callee with
  | .cls c => (c.findMethod? options.walksSuperclasses "constructor").map fun found =>
      ⟨found.1, args, ⟨s.properties.size, c⟩, found.2⟩
  | _ => none

/-- The method that a node runs for an object once its parts gave the values `vs` and left a
state. -/
def Part.invocation? (options : Options) : Part → List Value → State → Option Invocation
  | expr (.new _ _), callee :: args, s => callee.construction? options args s
  | expr (.call (.property _ _) _), target :: function :: args, _ =>
      function.invocation? args target.object?
  | expr (.call _ _), function :: args, _ => function.invocation? args none
  | _, _, _ => none

/-! ### The bindings of a method -/

/-- A table has the last content that was written under a name. -/
theorem Table.get?_ofList_of_notMem {α : Type} {name : String} {rows : List (String × α)}
    (h : name ∉ rows.map Prod.fst) (first : α) :
    (ofList ((name, first) :: rows)).get? name = some first := by
  have go : ∀ (rows : List (String × α)) (t : Table α), name ∉ rows.map Prod.fst →
      (rows.foldl (fun t row => t.set row.1 row.2) t).get? name = t.get? name := by
    intro rows
    induction rows with
    | nil => exact fun _ _ => rfl
    | cons row rows ih =>
        intro t h
        have hne : row.1 ≠ name := fun hrow => h (List.mem_cons.mpr (.inl hrow.symm))
        have hrest : name ∉ rows.map Prod.fst := fun hrow => h (List.mem_cons_of_mem _ hrow)
        exact (ih _ hrest).trans ((get?_set ..).trans (if_neg hne))
  refine (go rows _ h).trans ?_
  rw [get?_set, if_pos rfl]

theorem get?_callBindings {params : List String} (hthis : "this" ∉ params) (args : List Value)
    (o : Object) : (callBindings params args (some o)).get? "this" = some (.object o) := by
  have hzip {params : List String} (hthis : "this" ∉ params) :
      "this" ∉ (params.zip args).map Prod.fst := by
    intro h
    obtain ⟨row, hrow, hname⟩ := List.mem_map.mp h
    exact hthis (hname ▸ (List.of_mem_zip hrow).1)
  unfold callBindings
  split
  · next hnone => cases hnone
  · next o' rest ho =>
      cases ho
      have hrest : "this" ∉ rest := fun h => hthis (List.mem_cons_of_mem _ h)
      refine Table.get?_ofList_of_notMem (fun h => ?_) _
      rcases List.mem_cons.mp h with h | h
      · exact absurd (show "this" = "self" from h) (by decide)
      · exact hzip hrest h
  · next o' ho _ =>
      cases ho
      exact Table.get?_ofList_of_notMem (hzip hthis) _

theorem Invocation.get?_this {i : Invocation} (hthis : "this" ∉ i.method.params) :
    i.table.get? "this" = some (.object i.object) := by
  have hbindings := get?_callBindings hthis i.args i.object
  unfold table constructorTable withSuper
  cases i.owner.superclass? with
  | none => exact hbindings
  | some parent => exact (Table.get?_set ..).trans ((if_neg (by decide)).trans hbindings)

theorem Invocation.get?_super {i : Invocation} {parent : Class}
    (h : i.owner.superclass? = some parent) : i.table.get? "super" = some (.cls parent) := by
  unfold table constructorTable withSuper
  rw [h]
  exact (Table.get?_set ..).trans (if_pos rfl)

section

variable {options : Options} {node : Part} {vs : List Value} {s t : State} {i : Invocation}

theorem Value.calledBody?_of_invocation? (hwalks : options.walksSuperclasses = true)
    {callee : Value} {args : List Value} {receiver : Option Object}
    (h : callee.invocation? args receiver = some i) (s : State) :
    calledBody? options callee args receiver s = some (i.method.activation i.table s) := by
  have htable (f : Closure) (args : List Value) (o : Object) (c : Class) :
      callTable options f args (some o) (some c) = constructorTable f args o c := by
    unfold callTable
    dsimp only
    rw [if_pos hwalks]
    rfl
  cases callee with
  | boundMethod ident method o owner =>
      cases h
      rw [calledBody?, htable]
      rfl
  | function f =>
      obtain ⟨o, rfl, rfl⟩ := Option.map_eq_some_iff.mp h
      rw [calledBody?, Option.map_some, htable]
      rfl
  | _ => cases h

/-- A node that runs a method runs its body, in a new scope with the bindings of the method. -/
theorem Part.activation?_of_invocation? (hwalks : options.walksSuperclasses = true)
    (h : node.invocation? options vs s = some i) :
    ∃ u, u.scopes = s.scopes ∧
      node.activation? options vs s = some (i.method.activation i.table u) := by
  unfold invocation? at h
  split at h
  · next className args callee rest =>
      cases callee with
      | cls c =>
          obtain ⟨found, hfound, rfl⟩ := Option.map_eq_some_iff.mp h
          refine ⟨s.withObject c, rfl, ?_⟩
          rw [activation?, constructorBody?, hfound]
          rfl
      | _ => cases h
  · exact ⟨s, rfl, Value.calledBody?_of_invocation? hwalks h s⟩
  · next callee args function rest hcallee =>
      refine ⟨s, rfl, ?_⟩
      rw [activation?]
      · exact Value.calledBody?_of_invocation? hwalks h s
      · exact hcallee
  · cases h

/-- A method that is run for safe values has a literal that the conduct allows. -/
theorem Conduct.literal_invocation? {κ : Conduct} (hvs : ∀ v ∈ vs, κ.Safe s v)
    (h : node.invocation? options vs s = some i) : κ.literal i.method.literal := by
  have hcalled {callee : Value} {args : List Value} {receiver : Option Object}
      (hcallee : κ.Safe s callee) (h : callee.invocation? args receiver = some i) :
      κ.literal i.method.literal := by
    cases callee with
    | boundMethod ident method o owner =>
        cases h
        exact hcallee.1
    | function f =>
        obtain ⟨o, rfl, rfl⟩ := Option.map_eq_some_iff.mp h
        exact hcallee
    | _ => cases h
  unfold Part.invocation? at h
  split at h
  · next className args callee rest =>
      cases callee with
      | cls c =>
          obtain ⟨⟨method, owner⟩, hfound, rfl⟩ := Option.map_eq_some_iff.mp h
          exact (safe_method (hvs _ List.mem_cons_self) hfound).1
      | _ => cases h
  · exact hcalled (hvs _ (List.mem_cons_of_mem _ List.mem_cons_self)) h
  · exact hcalled (hvs _ List.mem_cons_self) h
  · cases h

end

/-! ### The scope of a method -/

/-- What a scope binds itself is what a name stands for there. -/
theorem Scopes.get?_of_bindings {α : Type} {S : Scopes α} {scope : Nat} {name : String} {a : α}
    (h : (S.bindings scope).get? name = some a) : S.get? scope name = some a := by
  rw [get?_eq, h, Option.some_or]

/-- In a scope `this` is an object that a method was called for, and `super` is the superclass of
the class that the method was found on, if it has one. -/
structure State.BindsMethod (s : State) (scope : Nat) (o : Object) (c : Class) : Prop where
  lt : scope < s.scopes.size
  this : (s.scopes.bindings scope).get? "this" = some (.object o)
  super : ∀ p, c.superclass? = some p → (s.scopes.bindings scope).get? "super" = some (.cls p)

namespace State.BindsMethod

variable {s t : State} {scope : Nat} {o : Object} {c p : Class}

theorem retains {name : String → Prop} (h : s.BindsMethod scope o c) (hretains : s.Retains name t)
    (hthis : ¬name "this") (hsuper : ¬name "super") : t.BindsMethod scope o c where
  lt := Nat.lt_of_lt_of_le h.lt hretains.size
  this := (hretains.rows scope h.lt _ hthis).trans h.this
  super p hp := (hretains.rows scope h.lt _ hsuper).trans (h.super p hp)

theorem get?_this (h : s.BindsMethod scope o c) :
    s.scopes.get? scope "this" = some (.object o) :=
  Scopes.get?_of_bindings h.this

theorem get?_super (h : s.BindsMethod scope o c) (hp : c.superclass? = some p) :
    s.scopes.get? scope "super" = some (.cls p) :=
  Scopes.get?_of_bindings (h.super p hp)

end State.BindsMethod

/-! ### Evaluations that run methods -/

namespace Evaluation

open Scripting.Part

/-- The evaluation runs a body itself. -/
inductive Runs (options : Options) : Evaluation → Evaluation → Prop where
  | intro {depth scope : Nat} {node : Part} {s : State} {a : Activation}
      (h : node.Opens options (runBody options (depth + 1)) scope s a) :
      Runs options ⟨depth + 1, node, scope, s⟩ ⟨depth, .block a.body, a.scope, a.state⟩

/-- The evaluation runs, as the body of a method with a name, the definition that a class has, for
an object. -/
inductive Invokes (options : Options) (name : String) :
    Object → Class → Evaluation → Evaluation → Prop where
  | intro {depth scope : Nat} {node : Part} {s t : State} {vs : List Value} {i : Invocation}
      {a : Activation}
      (hgives : Gives options (runBody options (depth + 1)) scope (node.parts vs) s vs t)
      (hinvocation : node.invocation? options vs t = some i)
      (hmethod : i.owner.own.methods.get? name = some i.method)
      (hactivation : node.activation? options vs t = some a) :
      Invokes options name i.object i.owner ⟨depth + 1, node, scope, s⟩
        ⟨depth, .block a.body, a.scope, a.state⟩

variable {options : Options} {name : String} {o : Object} {c : Class} {e b b' : Evaluation}

theorem Runs.starts (h : e.Runs options b) : e.Starts options b := by
  cases h with
  | intro h => exact .body h

theorem Runs.unique (h : e.Runs options b) (h' : e.Runs options b') : b = b' := by
  cases h with
  | intro h =>
      cases h' with
      | intro h' =>
          cases h.unique h'
          rfl

theorem Runs.depth_eq (h : e.Runs options b) : e.depth = b.depth + 1 := by
  cases h
  rfl

theorem Invokes.runs (h : e.Invokes options name o c b) : e.Runs options b := by
  cases h with
  | intro hgives _ _ hactivation => exact .intro ⟨_, _, hgives, hactivation⟩

/-- A node that runs a method of its class runs it as a body, if bodies may nest any deeper. -/
theorem exists_invokes (hwalks : options.walksSuperclasses = true) {depth scope : Nat}
    {node : Part} {s t : State} {vs : List Value} {i : Invocation}
    (hgives : Gives options (runBody options (depth + 1)) scope (node.parts vs) s vs t)
    (hinvocation : node.invocation? options vs t = some i)
    (hmethod : i.owner.own.methods.get? name = some i.method) :
    ∃ b, (⟨depth + 1, node, scope, s⟩ : Evaluation).Invokes options name i.object i.owner b := by
  obtain ⟨u, -, hactivation⟩ := activation?_of_invocation? hwalks hinvocation
  exact ⟨_, .intro hgives hinvocation hmethod hactivation⟩

theorem Invokes.unique {name' : String} {o' : Object} {c' : Class}
    (h : e.Invokes options name o c b) (h' : e.Invokes options name' o' c' b') :
    o = o' ∧ c = c' ∧ b = b' := by
  have hb := h.runs.unique h'.runs
  cases h with
  | intro hgives hinvocation _ _ =>
      cases h' with
      | intro hgives' hinvocation' _ _ =>
          obtain ⟨rfl, rfl⟩ := hgives.all_unique hgives'
          cases hinvocation.symm.trans hinvocation'
          exact ⟨rfl, rfl, hb⟩

/-- The body is that of the definition that the class has. -/
theorem Invokes.node_eq (hwalks : options.walksSuperclasses = true)
    (h : e.Invokes options name o c b) {f : Closure} (hf : c.own.methods.get? name = some f) :
    b.node = .block f.body := by
  cases h with
  | intro hgives hinvocation hmethod hactivation =>
      obtain ⟨u, -, ha⟩ := activation?_of_invocation? hwalks hinvocation
      cases hactivation.symm.trans ha
      cases hf.symm.trans hmethod
      rfl

/-- The scope of the body is a new one. -/
theorem Invokes.size_le {κ : Conduct} (hwalks : options.walksSuperclasses = true)
    (he : κ.Admitted options e) (h : e.Invokes options name o c b) :
    e.state.scopes.size ≤ b.scope := by
  cases h with
  | intro hgives hinvocation hmethod hactivation =>
      obtain ⟨u, hu, ha⟩ := activation?_of_invocation? hwalks hinvocation
      cases hactivation.symm.trans ha
      refine Nat.le_trans (he.gives hgives).1.retains.size (Nat.le_of_eq ?_)
      rw [← hu]
      rfl

/-- The scope of the body binds `this` to the object and `super` to the superclass of the class. -/
theorem Invokes.bindsMethod {κ : Conduct} (hthis : ¬κ.name "this")
    (hwalks : options.walksSuperclasses = true) (he : κ.Admitted options e)
    (h : e.Invokes options name o c b) : b.state.BindsMethod b.scope o c := by
  cases h with
  | @intro depth scope node s t vs i a hgives hinvocation hmethod hactivation =>
      obtain ⟨u, -, ha⟩ := activation?_of_invocation? hwalks hinvocation
      cases hactivation.symm.trans ha
      have hparams : "this" ∉ i.method.params := fun hmem =>
        hthis (κ.params (Conduct.literal_invocation? (he.gives hgives).2 hinvocation) _ hmem)
      have hbindings : (u.withScope i.method.scope i.table).scopes.bindings u.scopes.size =
          i.table := by
        rw [State.withScope, Scopes.bindings_addInside, if_pos rfl]
      constructor
      · change u.scopes.size < (u.withScope i.method.scope i.table).scopes.size
        rw [State.withScope, Scopes.size_addInside]
        exact Nat.lt_succ_self _
      · exact (congrArg (·.get? "this") hbindings).trans (Invocation.get?_this hparams)
      · intro p hp
        exact (congrArg (·.get? "super") hbindings).trans (Invocation.get?_super hp)

end Evaluation

end Scripting
