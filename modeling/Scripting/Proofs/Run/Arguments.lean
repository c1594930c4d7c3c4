import Scripting.Proofs.Run.Calls
import Scripting.Proofs.Run.FirstSignal
import Scripting.Proofs.Scopes.Lookup
import Scripting.Proofs.Value.Slots

/-!
# How arguments are bound

A call is made for a receiver or for none. The receiver takes the place of a first parameter called
`self`; the parameters that are left (`positionalParams`) take the arguments by position, as far as
both go. `State.BindsArguments` says what the scope of a call binds each name to, by way of the
positions, and that nothing else has changed. A call and the making of an object go through this
one scope; all that they add is `super` (`runOn_callFunction_bindSuper`,
`runOn_makeObject_bindSuper`).
-/

namespace Scripting

/-- The parameters that take arguments by position. -/
def positionalParams (params : List String) (receiver : Option Object) : List String :=
  if receiver.isSome ∧ params.head? = some "self" then params.tail else params

/-- What a receiver is bound to before the arguments are. -/
def receiverBinding? (params : List String) (receiver : Option Object) (name : String) :
    Option Value :=
  if name = "this" ∨ name = "self" ∧ params.head? = some "self" then receiver.map .object
  else none

/-- In the state `t` the scope of a call has been added to those of `s`. -/
structure State.BindsArguments (s t : State) (f : Closure) (args : List Value)
    (receiver : Option Object) : Prop where
  size : t.scopes.size = s.scopes.size + 1
  enclosed : t.scopes.outer? s.scopes.size = some f.scope
  /-- A name has the argument at the last place where it is a parameter that got one. -/
  given : ∀ i name, i < args.length → (positionalParams f.params receiver)[i]? = some name →
    (∀ j, i < j → j < args.length → (positionalParams f.params receiver)[j]? ≠ some name) →
    (t.scopes.bindings s.scopes.size).get? name = args[i]?
  /-- Other names are bound by the receiver or not at all. -/
  notGiven : ∀ name, name ∉ (positionalParams f.params receiver).take args.length →
    (t.scopes.bindings s.scopes.size).get? name = receiverBinding? f.params receiver name
  /-- What the scope does not bind is read in the scope around the function. -/
  read : ∀ name, t.scopes.get? s.scopes.size name =
    ((t.scopes.bindings s.scopes.size).get? name).or (s.scopes.get? f.scope name)
  otherBindings : ∀ i, i ≠ s.scopes.size → t.scopes.bindings i = s.scopes.bindings i
  otherOuter : ∀ i, i ≠ s.scopes.size → t.scopes.outer? i = s.scopes.outer? i
  properties : t.properties = s.properties
  nextIdent : t.nextIdent = s.nextIdent
  output : t.output = s.output

/-! ### The table of a call -/

namespace Table

variable {α : Type}

/-- Rows that are written later count first. -/
theorem get?_ofList_append (rows later : List (String × α)) (name : String) :
    (ofList (rows ++ later)).get? name =
      ((ofList later).get? name).or ((ofList rows).get? name) := by
  simp only [get?_ofList, List.filter_append, List.getLast?_append, Option.map_or]

theorem get?_ofList_singleton (n : String) (a : α) (name : String) :
    (ofList [(n, a)]).get? name = if name = n then some a else none := by
  simp only [eq_comm]
  rfl

theorem get?_ofList_eq_none {rows : List (String × α)} {name : String}
    (h : name ∉ rows.map Prod.fst) : (ofList rows).get? name = none :=
  (get?_eq_none_iff _ _).mpr (mt (mem_names_ofList rows name).mp h)

end Table

section

variable {params : List String} {args : List Value} {receiver : Option Object} {name : String}

theorem map_fst_zip_eq_take (names : List String) (args : List Value) :
    (names.zip args).map Prod.fst = names.take args.length := by
  induction names generalizing args with
  | nil => rw [List.zip_nil_left, List.take_nil, List.map_nil]
  | cons n names ih =>
      cases args with
      | nil => rfl
      | cons a args => exact congrArg (n :: ·) (ih args)

/-- The last place of a name among those with an argument decides. -/
theorem get?_ofList_zip {names : List String} {i : Nat} (hi : i < args.length)
    (hname : names[i]? = some name)
    (hlast : ∀ j, i < j → j < args.length → names[j]? ≠ some name) :
    (Table.ofList (names.zip args)).get? name = args[i]? := by
  induction names generalizing args i with
  | nil => cases hname
  | cons n names ih =>
      cases args with
      | nil => cases hi
      | cons a args =>
          rw [List.zip_cons_cons, ← List.singleton_append, Table.get?_ofList_append,
            Table.get?_ofList_singleton]
          cases i with
          | zero =>
              have hrest : name ∉ (names.zip args).map Prod.fst := by
                intro hmem
                rw [map_fst_zip_eq_take] at hmem
                obtain ⟨j, hj, hjname⟩ := List.mem_take_iff_getElem.mp hmem
                rw [Nat.lt_min] at hj
                refine hlast (j + 1) (Nat.succ_pos j) (Nat.succ_lt_succ hj.1) ?_
                rw [List.getElem?_cons_succ, List.getElem?_eq_getElem hj.2, hjname]
              rw [Table.get?_ofList_eq_none hrest, Option.none_or,
                if_pos (Option.some.inj hname).symm, List.getElem?_cons_zero]
          | succ i =>
              have hi' := Nat.lt_of_succ_lt_succ hi
              rw [ih hi' hname fun j hj hlt => hlast (j + 1) (Nat.succ_lt_succ hj)
                  (Nat.succ_lt_succ hlt),
                List.getElem?_cons_succ, List.getElem?_eq_getElem hi', Option.some_or]

/-- The rows of a call are those of the receiver, followed by those of the arguments. -/
theorem exists_receiver_rows (params : List String) (receiver : Option Object) :
    ∃ rows,
      (∀ args, callBindings params args receiver =
        Table.ofList (rows ++ (positionalParams params receiver).zip args)) ∧
      ∀ name, (Table.ofList rows).get? name = receiverBinding? params receiver name := by
  cases receiver with
  | none => exact ⟨[], fun args => rfl, fun name => (ite_self none).symm⟩
  | some o =>
      by_cases hself : params.head? = some "self"
      · obtain ⟨rest, rfl⟩ := List.head?_eq_some_iff.mp hself
        refine ⟨[("this", .object o), ("self", .object o)], fun args => rfl, fun name => ?_⟩
        rw [← List.singleton_append, Table.get?_ofList_append, Table.get?_ofList_singleton,
          Table.get?_ofList_singleton, receiverBinding?]
        by_cases hthis : name = "this" <;> by_cases hname : name = "self" <;>
          simp [hthis, hname]
      · refine ⟨[("this", .object o)], fun args => ?_, fun name => ?_⟩
        · rw [callBindings_of_head_ne hself, positionalParams, if_neg fun h => hself h.2]
          rfl
        · rw [Table.get?_ofList_singleton, receiverBinding?]
          simp only [hself, and_false, or_false, Option.map_some]

theorem get?_callBindings_of_given {i : Nat} (hi : i < args.length)
    (hname : (positionalParams params receiver)[i]? = some name)
    (hlast : ∀ j, i < j → j < args.length →
      (positionalParams params receiver)[j]? ≠ some name) :
    (callBindings params args receiver).get? name = args[i]? := by
  obtain ⟨rows, heq, -⟩ := exists_receiver_rows params receiver
  rw [heq, Table.get?_ofList_append, get?_ofList_zip hi hname hlast,
    List.getElem?_eq_getElem hi, Option.some_or]

theorem get?_callBindings_of_notMem
    (h : name ∉ (positionalParams params receiver).take args.length) :
    (callBindings params args receiver).get? name = receiverBinding? params receiver name := by
  obtain ⟨rows, heq, hrows⟩ := exists_receiver_rows params receiver
  rw [← map_fst_zip_eq_take] at h
  rw [heq, Table.get?_ofList_append, Table.get?_ofList_eq_none h, Option.none_or, hrows]

theorem zip_take_length (names : List String) (args : List Value) :
    names.zip (args.take names.length) = names.zip args := by
  induction names generalizing args with
  | nil => rw [List.zip_nil_left, List.zip_nil_left]
  | cons n names ih =>
      cases args with
      | nil => rfl
      | cons a args => exact congrArg ((n, a) :: ·) (ih args)

/-- Arguments behind those that parameters take are dropped. -/
theorem callBindings_take (params : List String) (args : List Value)
    (receiver : Option Object) :
    callBindings params (args.take (positionalParams params receiver).length) receiver =
      callBindings params args receiver := by
  obtain ⟨rows, heq, -⟩ := exists_receiver_rows params receiver
  rw [heq, heq, zip_take_length]

end

/-! ### The scope of a call -/

theorem Scopes.set_addInside {α : Type} (S : Scopes α) (outer : Nat) (table : Table α)
    (name : String) (a : α) :
    (S.addInside outer table).set S.size name a = S.addInside outer (table.set name a) := by
  refine ext_bindings (by simp) (fun i => ?_) fun i => ?_
  · rw [bindings_set, bindings_addInside, bindings_addInside, bindings_addInside, if_pos rfl,
      size_addInside]
    by_cases hi : i = S.size <;> simp [hi]
  · rw [outer?_set, outer?_addInside_eq, outer?_addInside_eq]

namespace Eval

/-- Binds `super` in the scope of a call, where the class that owns the function has a
superclass. -/
def bindSuper (scope : Nat) (owner : Option Class) : Eval Unit :=
  match owner.bind Class.superclass? with
  | none => pure ()
  | some parent => bindName scope "super" (.cls parent)

theorem runOn_bindSuper_withScope (outer : Nat) (table : Table Value) (owner : Class)
    (s : State) :
    (bindSuper s.scopes.size (some owner)).runOn (s.withScope outer table) =
      (some (), s.withScope outer (withSuper table owner)) := by
  unfold bindSuper withSuper
  rw [Option.bind_some]
  cases owner.superclass? with
  | none => rfl
  | some parent =>
      have hset := s.scopes.set_addInside outer table "super" (.cls parent)
      exact congrArg (fun scopes => (some (), { s with scopes := scopes })) hset

end Eval

section

variable (options : Options) (run : RunBody)

/-- A call binds its arguments in a new scope, then `super` where methods are looked up in
ancestors, and then runs its body there. -/
theorem runOn_callFunction_bindSuper (f : Closure) (args : List Value) (receiver : Option Object)
    (owner : Option Class) (s : State) :
    (callFunction options run f args receiver owner).runOn s = (do
      let scope ← Eval.enterScope f.scope (callBindings f.params args receiver)
      if options.walksSuperclasses then Eval.bindSuper scope owner
      let result ← run f.body scope
      pure result.unwrapReturn).runOn s := by
  rw [callFunction_eq, Eval.runOn_bind_of_some (Eval.runOn_enterScope _ _ s),
    Eval.runOn_bind_of_some (Eval.runOn_enterScope _ _ s)]
  unfold callTable
  cases owner with
  | none => cases options.walksSuperclasses <;> rfl
  | some c =>
      cases options.walksSuperclasses with
      | false => rfl
      | true =>
          simp only [↓reduceIte]
          rw [Eval.runOn_bind_of_some (Eval.runOn_bindSuper_withScope _ _ c s)]

/-- The making of an object binds the arguments of the constructor the same way. -/
theorem runOn_makeObject_bindSuper {c owner : Class} {method : Closure} (args : List Value)
    (hmethod : c.findMethod? options.walksSuperclasses "constructor" = some (method, owner))
    (s : State) :
    (makeObject options run (.cls c) args).runOn s = (do
      let scope ← Eval.enterScope method.scope
        (callBindings method.params args (some ⟨s.properties.size, c⟩))
      Eval.bindSuper scope (some owner)
      let result ← run method.body scope
      if result.isError then pure result
      else pure (.object ⟨s.properties.size, c⟩)).runOn (s.withObject c) := by
  have hobject :
      (Eval.newObject c (c.own.methods.map fun row => (row.1, .function row.2))).runOn s =
        (some ⟨s.properties.size, c⟩, s.withObject c) := rfl
  simp only [makeObject]
  rw [Eval.runOn_bind_of_some hobject, hmethod]
  dsimp only
  rw [Eval.runOn_bind_of_some (Eval.runOn_enterScope _ _ _),
    Eval.runOn_bind_of_some (Eval.runOn_enterScope _ _ _),
    Eval.runOn_bind_of_some (Eval.runOn_bindSuper_withScope _ _ owner (s.withObject c))]

end

theorem State.bindsArguments_withScope {s : State} {f : Closure} (hf : f.scope < s.scopes.size)
    (args : List Value) (receiver : Option Object) :
    s.BindsArguments (s.withScope f.scope (callBindings f.params args receiver)) f args
      receiver := by
  have hnew : (s.withScope f.scope (callBindings f.params args receiver)).scopes.bindings
      s.scopes.size = callBindings f.params args receiver :=
    (Scopes.bindings_addInside ..).trans (if_pos rfl)
  have houter : (s.withScope f.scope (callBindings f.params args receiver)).scopes.outer?
      s.scopes.size = some f.scope :=
    (Scopes.outer?_addInside _ _ _ _ hf).trans (if_pos rfl)
  refine ⟨Scopes.size_addInside .., houter, fun i name hi hname hlast => ?_, fun name h => ?_,
    fun name => ?_, fun i hi => (Scopes.bindings_addInside ..).trans (if_neg hi),
    fun i hi => Scopes.outer?_addInside_of_ne _ _ _ hi, rfl, rfl, rfl⟩
  · rw [hnew]
    exact get?_callBindings_of_given hi hname hlast
  · rw [hnew]
    exact get?_callBindings_of_notMem h
  · rw [Scopes.get?_eq, houter, Option.bind_some]
    exact congrArg _ (Scopes.get?_addInside_of_ne _ _ (Nat.ne_of_lt hf) name)

/-- The scope of a call is a new one inside that of the function. It binds the receiver and, over
it, the arguments by position; arguments that no parameter takes make no difference. -/
theorem arguments_are_bound (s : State) (f : Closure) (args : List Value)
    (receiver : Option Object) (hf : f.scope < s.scopes.size) :
    ∃ t, (Eval.enterScope f.scope (callBindings f.params args receiver)).runOn s =
        (some s.scopes.size, t) ∧
      s.BindsArguments t f args receiver ∧
      ∀ surplus, (positionalParams f.params receiver).length ≤ args.length →
        (Eval.enterScope f.scope (callBindings f.params (args ++ surplus) receiver)).runOn s =
          (some s.scopes.size, t) := by
  refine ⟨_, Eval.runOn_enterScope _ _ s, State.bindsArguments_withScope hf args receiver,
    fun surplus hlen => ?_⟩
  rw [← callBindings_take, List.take_append_of_le_length hlen, callBindings_take]
  exact Eval.runOn_enterScope _ _ s

/-- A method that has two of its parameters twice. -/
def twiceNamed : Closure :=
  ⟨0, .mk ["self", "a", "self", "a", "b"] [], 0⟩

/-- The second `self` takes an argument, the last `a` that got one decides, and `b` is read in the
scope around the function. -/
theorem arguments_are_bound_of_twiceNamed :
    twiceNamed.scope < State.oneScope.scopes.size ∧
      ∃ t, (Eval.enterScope 0 (callBindings twiceNamed.params
          [.integer 1, .integer 2, .integer 3] (some ⟨0, ⟨⟨1, "C", []⟩, []⟩⟩))).runOn .oneScope =
          (some 1, t) ∧
        (t.scopes.bindings 1).get? "self" = some (.integer 2) ∧
        (t.scopes.bindings 1).get? "a" = some (.integer 3) ∧
        (t.scopes.bindings 1).get? "this" = some (.object ⟨0, ⟨⟨1, "C", []⟩, []⟩⟩) ∧
        t.scopes.get? 1 "b" = State.oneScope.scopes.get? 0 "b" := by
  have hscope : twiceNamed.scope < State.oneScope.scopes.size := Nat.one_pos
  obtain ⟨t, ht, hbinds, -⟩ := arguments_are_bound .oneScope twiceNamed
    [.integer 1, .integer 2, .integer 3] (some ⟨0, ⟨⟨1, "C", []⟩, []⟩⟩) hscope
  have hparams : positionalParams twiceNamed.params (some ⟨0, ⟨⟨1, "C", []⟩, []⟩⟩) =
      ["a", "self", "a", "b"] := rfl
  have hb := hbinds.notGiven "b" (by rw [hparams]; decide)
  refine ⟨hscope, t, ht, hbinds.given 1 "self" (by decide) rfl ?_,
    hbinds.given 2 "a" (by decide) rfl ?_,
    (hbinds.notGiven "this" (by rw [hparams]; decide)).trans rfl,
    (hbinds.read "b").trans (by rw [hb]; rfl)⟩
  · intro j hj hlt
    obtain rfl : j = 2 := by
      rw [List.length_cons, List.length_cons, List.length_singleton] at hlt
      omega
    rw [hparams]
    decide
  · intro j hj hlt
    exact absurd hlt (Nat.not_lt_of_le hj)

end Scripting
