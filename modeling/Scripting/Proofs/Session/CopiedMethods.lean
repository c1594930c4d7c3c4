import Scripting.Proofs.Run.FallbackNodes
import Scripting.Proofs.Run.Lasting

/-!
# Copied methods and the methods of the class

An object that a script makes has the methods of its class among its own properties. An object that
the host makes has not, and its methods are found in the class and bound when they are read. Where
the methods are only called, it does not matter which of the two an object is: a run that starts
from one state and a run that starts from the other do the same, but for the numbers of what they
make and for the copies themselves (`copied_methods_agree_with_fallback`).
-/

namespace Scripting

/-- A registry that fits a state has the class of every object that the state contains. -/
theorem Registry.Fits.object_of_contains {w : Registry} {s : State} {o : Object} (hs : w.Fits s)
    (ho : s.Contains (.object o)) : w.object o.ident = some o.cls :=
  have hknown : w.KnowsObject o := (hs.stores.everywhere ho).head
  hknown.1

namespace Copies

variable (K : Copies)

/-- The value is no function that reads one of the methods but to call it. -/
def obeys : Value → Bool
  | .function f => K.OnlyCalled (Block.nodes f.body)
  | _ => true

/-- The registry in which all identities below `n` were given to something, if only to null, and
none of them to a function that reads one of the methods but to call it. -/
def settle (w : Registry) (n : Nat) : Registry where
  value i := if i < n then some (((w.value i).filter K.obeys).getD .null) else none
  object := w.object

/-- Identities that were given are the same in two runs that have yet to start. -/
def start (w : Registry) (n : Nat) : Pairing where
  registry := K.settle w n
  ident i := i
  ident_lt h := h

variable {K} {w : Registry} {s t : State}

theorem value_settle (hs : w.Fits s) {i : Nat} {v : Value} (hv : w.value i = some v)
    (hobeys : K.obeys v = true) : (K.settle w s.nextIdent).value i = some v := by
  have hi : i < s.nextIdent := Nat.lt_of_not_le fun hle => by cases (hs.value i hle).symm.trans hv
  refine (if_pos hi).trans ?_
  rw [hv, Option.filter_some, if_pos hobeys, Option.getD_some]

/-- What is known is known to the settled registry, unless it has a function in it that reads one of
the methods but to call it. -/
theorem knows_settle (hs : w.Fits s) {v : Value} (hv : w.Knows v)
    (hclosures : ∀ u : Value, u.Inside v → ∀ f ∈ u.closures, K.OnlyCalled (Block.nodes f.body)) :
    (K.settle w s.nextIdent).Knows v := by
  have hclosure {f : Closure} (hf : w.KnowsClosure f)
      (hbody : K.OnlyCalled (Block.nodes f.body)) : (K.settle w s.nextIdent).KnowsClosure f :=
    value_settle hs hf (decide_eq_true hbody)
  have hclass {c : Class} (hc : w.KnowsClass c)
      (hbodies : ∀ f ∈ c.closures, K.OnlyCalled (Block.nodes f.body)) :
      (K.settle w s.nextIdent).KnowsClass c := by
    refine fun k hk => ⟨value_settle hs (hc k hk).1 rfl, fun row hrow => ?_⟩
    refine hclosure ((hc k hk).2 row hrow) (hbodies _ ?_)
    exact Class.closures_lineageOf c.ancestors c.own k hk _
      ((k.mem_closures _).mpr ⟨k.own, List.mem_cons_self, row, hrow, rfl⟩)
  refine Value.everywhere_of_inside fun u hu => ?_
  have hknown : w.KnowsAt u := (hv.inside hu).head
  have hbodies := hclosures u hu
  cases u with
  | array | hash => exact value_settle hs hknown rfl
  | function f => exact hclosure hknown (hbodies f List.mem_cons_self)
  | cls c => exact hclass hknown hbodies
  | object o => exact ⟨hknown.1, hclass hknown.2 hbodies⟩
  | boundMethod i f o owner =>
      obtain ⟨hi, hf, ho, howner⟩ := hknown
      refine ⟨value_settle hs hi rfl, hclosure hf (hbodies f List.mem_cons_self), ⟨ho.1, ?_⟩, ?_⟩
      · exact hclass ho.2 fun g hg =>
          hbodies g (List.mem_cons_of_mem _ (List.mem_append_left _ hg))
      · exact hclass howner fun g hg =>
          hbodies g (List.mem_cons_of_mem _ (List.mem_append_right _ hg))
  | _ => trivial

/-- States that differ by copies of methods go with a pairing that leaves all identities as they
are, as long as the functions in the first read the methods to call them only. -/
theorem states_start (hs : w.Fits s) (hobject : w.object K.object.ident = some K.object.cls)
    (hclosures : ∀ v : Value, s.Contains v → ∀ f ∈ v.closures, K.OnlyCalled (Block.nodes f.body))
    (hdiffers : s.DiffersBy K .id t) (hnext : t.nextIdent = s.nextIdent) :
    K.States (K.start w s.nextIdent) s t where
  fits := {
    stores := {
      bindings := fun i row hrow => knows_settle hs (hs.stores.bindings i row hrow)
        fun u hu => hclosures u (.bound hrow hu)
      properties := fun i hi row hrow => knows_settle hs (hs.stores.properties i hi row hrow)
        fun u hu => hclosures u (.property hrow hu) }
    value := fun i hi => if_neg (Nat.not_lt_of_le hi)
    object := hs.object }
  object := hobject
  onlyCalled {i f} hf := by
    change (if i < s.nextIdent then _ else _) = _ at hf
    split at hf
    · cases hvalue : (w.value i).filter K.obeys with
      | none => simp [hvalue] at hf
      | some v =>
          obtain ⟨-, hobeys⟩ := Option.filter_eq_some_iff.mp hvalue
          obtain rfl : v = .function f := by simpa [hvalue] using hf
          exact of_decide_eq_true hobeys
    · cases hf
  differs := hdiffers
  nextIdent k := by
    rw [hnext]
    rfl

/-- A computation does the same on two states: up to the numbers that it gives to what it makes, it
gives the same result, prints the same and leaves states that differ by copies of methods. -/
structure SameRun (K : Copies) (x : Eval Value) (s t : State) (ρ : Renaming) : Prop where
  scope : ∀ i, ρ.scope i = i
  object : ∀ i, ρ.object i = i
  ident : ∀ i < s.nextIdent, ρ.ident i = i
  result : (x.runOn t).1 = (x.runOn s).1.map (Value.rename ρ)
  printed : (x.runOn t).1.map Value.inspect = (x.runOn s).1.map Value.inspect
  output : (x.runOn t).2.output = (x.runOn s).2.output
  states : (x.runOn s).2.DiffersBy K ρ (x.runOn t).2

/-- A computation that agrees with itself does the same on states that go with the pairing of the
start. -/
theorem AgreesOn.sameRun {x : Eval Value} (h : K.AgreesOn (K.start w s.nextIdent) x x)
    (hstates : K.States (K.start w s.nextIdent) s t) : ∃ ρ, K.SameRun x s t ρ := by
  obtain ⟨b, hb, hst, hrel⟩ := h s t hstates
  have hresult : (x.runOn t).1 = (x.runOn s).1.map (Value.rename b.toRenaming) := by
    generalize (x.runOn s).1 = r at hrel
    generalize (x.runOn t).1 = r' at hrel
    cases hrel with
    | none => rfl
    | some hv => exact congrArg some hv.2
  refine ⟨b.toRenaming, fun _ => rfl, fun _ => rfl, fun i hi => ?_, hresult, ?_,
    hst.differs.output, hst.differs⟩
  · exact hb.ident (if_pos hi)
  · rw [hresult, Option.map_map]
    congr 1
    funext v
    exact Value.inspect_rename _ v

end Copies

/-- Where the methods of an object are read to be called only, in what is evaluated and in all
functions that the state contains, it makes no difference whether the object has copies of them or
not. A registry says what each identity in the state was given to; every reachable state has one
(`State.Reachable.exists_fits`), and it knows the objects in the state
(`Registry.Fits.object_of_contains`). -/
theorem copied_methods_agree_with_fallback (options : Options) (depth scope : Nat) {K : Copies}
    {w : Registry} {s t : State} (hs : w.Fits s)
    (hobject : w.object K.object.ident = some K.object.cls)
    (hclosures : ∀ v : Value, s.Contains v → ∀ f ∈ v.closures, K.OnlyCalled (Block.nodes f.body))
    (hdiffers : s.DiffersBy K .id t) (hnext : t.nextIdent = s.nextIdent) :
    (∀ node : Part, node.InTree → K.OnlyCalled node.nodes →
      ∃ ρ, K.SameRun (node.eval options (runBody options depth) scope) s t ρ) ∧
    (∀ program : Block, K.OnlyCalled (Block.nodes program) →
      ∃ ρ, K.SameRun (program.evalProgram options (runBody options depth) scope) s t ρ) := by
  have hstates := Copies.states_start hs hobject hclosures hdiffers hnext
  refine ⟨fun node htree hnode => ?_, fun program hprogram => ?_⟩
  · exact (Copies.agrees_eval (Copies.agrees_runBody depth) hnode htree scope).sameRun hstates
  · exact (Copies.agrees_evalProgram depth hprogram scope).sameRun hstates

/-- A new object of a class differs from one without properties by copies of all methods of the
class. -/
theorem State.differsBy_withObject (s : State) (c : Class) :
    (s.withObject c).DiffersBy ⟨⟨s.properties.size, c⟩, Table.names c.own.methods⟩ .id
      { s with properties := s.properties.push [] } where
  scopes := (Scopes.map_id Value.rename_id).symm
  size := by simp [withObject]
  others i hi := by
    rw [withObject, Array.getElem?_push, Array.getElem?_push, if_neg hi, if_neg hi]
    cases s.properties[i]? with
    | none => rfl
    | some table => exact congrArg some (Table.mapContents_id Value.rename_id table).symm
  entries name := by
    have hmade : (s.withObject c).own? s.properties.size name =
        (c.own.methods.get? name).map Value.function := by
      rw [own?, withObject, Array.getElem?_push_size]
      exact Table.get?_mapContents Value.function c.own.methods name
    have hgiven : own? { s with properties := s.properties.push [] } s.properties.size name =
        none := by
      rw [own?, Array.getElem?_push_size]
      rfl
    rw [hmade, hgiven]
    cases hf : c.own.methods.get? name with
    | none => exact .same rfl
    | some f =>
        refine .copied ((Table.get?_isSome_iff _ _).mp ?_) hf
        rw [hf, Option.isSome_some]
  output := rfl

/-- Two methods, one of which calls the other. -/
def greeterMethods : List (String × FunctionLiteral) :=
  [("greet", .mk ["self"] [.ret (.call (.property .this "name") [])]),
    ("name", .mk [] [.ret (.str "a")])]

/-- The class that a definition with these methods makes in the first scope. -/
def greeter : Class :=
  ⟨⟨2, "Greeter", greeterMethods.zipIdx.map fun (row, i) => (row.1, ⟨i, row.2, 0⟩)⟩, []⟩

/-- The state in which the class is defined. -/
def definesGreeter : State :=
  { State.oneScope with
    scopes := State.oneScope.scopes.set 0 "Greeter" (.cls greeter)
    nextIdent := 3 }

/-- A script makes the object. -/
def makesGreeter : List HostRequest :=
  [.root, .program {} 1 0 [.classDef "Greeter" none greeterMethods],
    .statement {} 1 0 (.letIn "g" (.new "Greeter" []))]

/-- The host makes the object. -/
def handsGreeter : List HostRequest :=
  [.root, .program {} 1 0 [.classDef "Greeter" none greeterMethods], .object 0 "g" "Greeter" []]

/-- The object with all of its methods. -/
def copiesOfGreeter : Copies :=
  ⟨⟨0, greeter⟩, Table.names greeter.own.methods⟩

/-- A method is called, the one that it calls is overwritten, and it is called again. -/
def overwritesName : Block :=
  [.expr (.call (.property (.ident "g") "greet") []),
    .expr (.assign (.property (.ident "g") "name") (.function (.mk [] [.ret (.str "b")]))),
    .expr (.call (.property (.ident "g") "greet") [])]

theorem serve_makesGreeter : State.initial.serve makesGreeter =
    { definesGreeter.withObject greeter with
      scopes := definesGreeter.scopes.set 0 "g" (.object ⟨0, greeter⟩) } := by
  with_unfolding_all rfl

theorem serve_handsGreeter : State.initial.serve handsGreeter =
    { definesGreeter with
      properties := definesGreeter.properties.push []
      scopes := definesGreeter.scopes.set 0 "g" (.object ⟨0, greeter⟩) } := by
  with_unfolding_all rfl

/-- All functions in the state read the methods of the object to call them only. -/
theorem onlyCalled_makesGreeter {v : Value} (hv : (State.initial.serve makesGreeter).Contains v) :
    ∀ f ∈ v.closures, copiesOfGreeter.OnlyCalled (Block.nodes f.body) := by
  let P (u : Value) : Prop := ∀ f ∈ u.closures, copiesOfGreeter.OnlyCalled (Block.nodes f.body)
  have hmethods : ∀ f ∈ greeter.closures, copiesOfGreeter.OnlyCalled (Block.nodes f.body) := by
    decide
  have hstores : (State.initial.serve makesGreeter).Stores fun u => u.Everywhere P := by
    rw [serve_makesGreeter]
    have hcls : (Value.cls greeter).Everywhere P := hmethods
    have hobject : (Value.object ⟨0, greeter⟩).Everywhere P := hmethods
    refine ⟨(Scopes.All.empty.addRoot.set 0 "Greeter" hcls).set 0 "g" hobject, fun i hi => ?_⟩
    obtain rfl : i = 0 := Nat.lt_one_iff.mp hi
    intro row hrow
    obtain ⟨method, hmethod, rfl⟩ := List.mem_map.mp hrow
    intro f hf
    rw [List.mem_singleton.mp hf]
    exact hmethods _
      ((greeter.mem_closures _).mpr ⟨greeter.own, List.mem_cons_self, method, hmethod, rfl⟩)
  exact (hstores.everywhere hv).head

theorem copied_methods_agree_with_fallback_of_greeter :
    (State.initial.serve makesGreeter).DiffersBy copiesOfGreeter .id
        (State.initial.serve handsGreeter) ∧
      (∃ f, (State.initial.serve makesGreeter).own? 0 "greet" = some (.function f)) ∧
      (State.initial.serve handsGreeter).own? 0 "greet" = none ∧
      copiesOfGreeter.OnlyCalled (Block.nodes overwritesName) ∧
      ((overwritesName.evalProgram {} (runBody {} 2) 0).runOn
        (State.initial.serve makesGreeter)).1 = some (.string "b") ∧
      ∃ ρ, copiesOfGreeter.SameRun (overwritesName.evalProgram {} (runBody {} 2) 0)
        (State.initial.serve makesGreeter) (State.initial.serve handsGreeter) ρ := by
  have htree : copiesOfGreeter.OnlyCalled (Block.nodes overwritesName) := by decide
  obtain ⟨w, hw⟩ := (State.reachable_serve makesGreeter).exists_fits
  have hcontains :
      (State.initial.serve makesGreeter).Contains (.object copiesOfGreeter.object) := by
    have hrow : ((State.initial.serve makesGreeter).scopes.bindings 0)[1]? =
        some ("g", .object copiesOfGreeter.object) := by
      with_unfolding_all rfl
    exact .bound (List.mem_of_getElem? hrow) (.self _)
  have hdiffers : (State.initial.serve makesGreeter).DiffersBy copiesOfGreeter .id
      (State.initial.serve handsGreeter) := by
    rw [serve_makesGreeter, serve_handsGreeter]
    have hobjects := (definesGreeter.differsBy_withObject greeter).withScopes
      (definesGreeter.scopes.set 0 "g" (.object ⟨0, greeter⟩))
    rw [Scopes.map_id Value.rename_id] at hobjects
    exact hobjects
  have hnext : (State.initial.serve handsGreeter).nextIdent =
      (State.initial.serve makesGreeter).nextIdent := by
    rw [serve_makesGreeter, serve_handsGreeter]
    rfl
  refine ⟨hdiffers, ⟨_, by with_unfolding_all rfl⟩, by with_unfolding_all rfl, htree,
    by with_unfolding_all rfl, ?_⟩
  exact (copied_methods_agree_with_fallback {} 2 0 hw (hw.object_of_contains hcontains)
    (fun _ => onlyCalled_makesGreeter) hdiffers hnext).2 overwritesName htree

end Scripting
