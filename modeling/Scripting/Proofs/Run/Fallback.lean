import Scripting.Proofs.Run.Agreement
import Scripting.Proofs.Run.Copies
import Scripting.Proofs.Run.Identity

/-!
# Acts and properties with and without copies of methods

Every act agrees with itself on states that differ by copies of methods, but for the reading of a
property of the object that has them in one of the states: there the first run reads a function, and
the second falls back on the class and binds the method (`Copies.Fetched`).
-/

namespace Scripting

namespace Copies

open Registry

variable {K : Copies} {a : Pairing}

/-- Agreement on values. -/
abbrev AgreesOn (K : Copies) (a : Pairing) (x y : Eval Value) : Prop :=
  K.Agrees a Pairing.Values x y

theorem agrees_fail (e : RuntimeError) : K.AgreesOn a (Eval.fail e) (Eval.fail e) :=
  .pure (Pairing.values_of_isPlain trivial)

theorem agrees_plain {v : Value} (h : v.IsPlain) : K.AgreesOn a (pure v) (pure v) :=
  .pure (Pairing.values_of_isPlain h)

/-- What known values give agrees with what their counterparts give. -/
theorem AgreesOn.onValue {x y : Eval Value} {f g : Value → Eval Value} (hx : K.AgreesOn a x y)
    (hf : ∀ b v, a.Later b → b.registry.Knows v → K.AgreesOn b (f v) (g (v.rename b.toRenaming))) :
    K.AgreesOn a (x.onValue f) (y.onValue g) := by
  refine Agrees.onValue hx ?_ (fun _ _ _ hv _ => hv) ?_
  · rintro b v _ ⟨-, rfl⟩
    exact Value.isSignal_rename _ v
  · rintro b v _ hb ⟨hv, rfl⟩
    exact hf b v hb hv

/-- Calls and programs give the value of a `return`. -/
theorem AgreesOn.unwrapReturn {x y : Eval Value} (h : K.AgreesOn a x y) :
    K.AgreesOn a (x >>= fun v => pure v.unwrapReturn) (y >>= fun v => pure v.unwrapReturn) := by
  refine h.bind ?_
  rintro b v _ - ⟨hv, rfl⟩
  rw [Value.unwrapReturn_rename]
  exact .pure ⟨knows_unwrapReturn hv, rfl⟩

/-! ### Acts -/

theorem States.object_lt {s t : State} (h : K.States a s t) :
    K.object.ident < s.properties.size := by
  refine Nat.lt_of_not_le fun hle => ?_
  cases h.object.symm.trans (h.fits.object _ hle)

/-- States that store known values and differ as before go with the same pairing, as long as no
identity is given. -/
theorem States.of_stores {s t s' t' : State} (h : K.States a s t)
    (hstores : s'.Stores a.registry.Knows) (hdiffers : s'.DiffersBy K a.toRenaming t')
    (hsize : s.properties.size = s'.properties.size) (hs : s.nextIdent = s'.nextIdent)
    (ht : t.nextIdent = t'.nextIdent) : K.States a s' t' where
  fits := h.fits.of_stores hstores hs hsize
  object := h.object
  onlyCalled := h.onlyCalled
  differs := hdiffers
  nextIdent := hs ▸ ht ▸ h.nextIdent

/-- Both runs give an identity to a value, which has no function in it that reads one of the
methods. -/
theorem agrees_freshIdent (make : Nat → Value)
    (hmake : ∀ i f, make i = .function f → K.OnlyCalled (Block.nodes f.body)) :
    K.Agrees a (fun b i j => b.registry.value i = some (make i) ∧ j = b.ident i)
      Eval.freshIdent Eval.freshIdent := by
  refine .act fun s t h => ?_
  have hnone := h.fits.value s.nextIdent (Nat.le_refl _)
  have hgiven : (a.give s.nextIdent (make s.nextIdent)).registry.value s.nextIdent =
      some (make s.nextIdent) := Function.update_self ..
  refine ⟨a.give s.nextIdent (make s.nextIdent), Pairing.later_give hnone _, ?_, ?_⟩
  · refine ⟨h.fits.give _, h.object, fun {i f} hf => ?_, ?_, fun k => ?_⟩
    · by_cases hi : i = s.nextIdent
      · subst hi
        exact hmake _ f (Option.some.inj (hgiven.symm.trans hf))
      · exact h.onlyCalled ((Function.update_of_ne hi ..).symm.trans hf)
    · exact ⟨h.differs.scopes, h.differs.size, h.differs.others, h.differs.entries,
        h.differs.output⟩
    · have hnext := h.nextIdent (k + 1)
      rw [Nat.add_right_comm, Nat.add_right_comm t.nextIdent]
      exact hnext
  · exact ⟨hgiven, (h.nextIdent 0).symm⟩

/-- The second run alone gives an identity. -/
theorem Agrees.skip {α β : Type} {Q : Pairing → α → β → Prop} {x : Eval α} {g : Nat → Eval β}
    (h : ∀ b j, a.Later b → K.Agrees b Q x (g j)) : K.Agrees a Q x (Eval.freshIdent >>= g) := by
  intro s t hs
  have hlater : a.Later (a.skip s.nextIdent) := Pairing.later_skip hs.fits.value
  have hstates : K.States (a.skip s.nextIdent) s { t with nextIdent := t.nextIdent + 1 } := by
    have hdiffers := hs.differs.later hs.fits.stores hlater
    refine ⟨hs.fits, hs.object, hs.onlyCalled, ?_, fun k => ?_⟩
    · exact ⟨hdiffers.scopes, hdiffers.size, hdiffers.others, hdiffers.entries, hdiffers.output⟩
    · have hnot : ¬s.nextIdent + k < s.nextIdent := by omega
      refine (if_neg hnot).trans ?_
      rw [hs.nextIdent k, Nat.add_right_comm]
  obtain ⟨b, hb, hst, hrel⟩ := h _ t.nextIdent hlater s _ hstates
  exact ⟨b, hlater.trans hb, hst, hrel⟩

theorem agrees_printLine (line : String) :
    K.Agrees a (fun _ _ _ => True) (Eval.printLine line) (Eval.printLine line) := by
  refine .act fun s t h => ⟨a, .refl a, ?_, trivial⟩
  refine h.of_stores ⟨h.fits.stores.bindings, h.fits.stores.properties⟩ ?_ rfl rfl rfl
  exact ⟨h.differs.scopes, h.differs.size, h.differs.others, h.differs.entries,
    by simp [h.differs.output]⟩

theorem agrees_lookup (scope : Nat) (name : String) :
    K.Agrees a (fun b => Option.Rel b.Values) (Eval.lookup scope name)
      (Eval.lookup scope name) := by
  refine .act fun s t h => ⟨a, .refl a, h, ?_⟩
  change Option.Rel a.Values (s.scopes.get? scope name) (t.scopes.get? scope name)
  rw [h.differs.scopes, Scopes.get?_map]
  cases hfound : s.scopes.get? scope name with
  | none => exact .none
  | some v => exact .some ⟨h.fits.stores.bindings.get? hfound, rfl⟩

/-- Scopes that both runs change in the same way. -/
theorem States.withScopes {s t : State} (h : K.States a s t) {S : Scopes Value}
    (hS : S.All a.registry.Knows) :
    K.States a { s with scopes := S } { t with scopes := S.map (Value.rename a.toRenaming) } :=
  h.of_stores (h.fits.stores.withScopes hS) (h.differs.withScopes S) rfl rfl rfl

theorem agrees_bindName (scope : Nat) (name : String) {v : Value} (hv : a.registry.Knows v) :
    K.Agrees a (fun _ _ _ => True) (Eval.bindName scope name v)
      (Eval.bindName scope name (v.rename a.toRenaming)) := by
  refine .act fun s t h => ⟨a, .refl a, ?_, trivial⟩
  have hstates := h.withScopes (h.fits.stores.bindings.set scope name hv)
  rw [← Scopes.set_map, ← h.differs.scopes] at hstates
  exact hstates

theorem agrees_assignName (scope : Nat) (name : String) {v : Value} (hv : a.registry.Knows v) :
    K.Agrees a (fun _ found found' => found' = found) (Eval.assignName scope name v)
      (Eval.assignName scope name (v.rename a.toRenaming)) := by
  refine .act fun s t h => ⟨a, .refl a, ?_⟩
  have hassign := Scopes.assign?_map (Value.rename a.toRenaming) s.scopes scope name v
  rw [← h.differs.scopes] at hassign
  rw [hassign]
  cases hfound : s.scopes.assign? scope name v with
  | none => exact ⟨h, rfl⟩
  | some S => exact ⟨h.withScopes (h.fits.stores.bindings.assign? hv hfound), rfl⟩

theorem agrees_enterScope (outer : Nat) {table : Table Value}
    (htable : table.All a.registry.Knows) :
    K.Agrees a (fun _ scope scope' => scope' = scope) (Eval.enterScope outer table)
      (Eval.enterScope outer (table.mapContents (Value.rename a.toRenaming))) := by
  refine .act fun s t h => ⟨a, .refl a, ?_, ?_⟩
  · have hstates := h.withScopes (h.fits.stores.bindings.addInside outer htable)
    rw [← Scopes.addInside_map, ← h.differs.scopes] at hstates
    exact hstates
  · change t.scopes.size = s.scopes.size
    rw [h.differs.scopes, Scopes.size_map]

theorem agrees_newObject {c : Class} {table : Table Value} (hc : a.registry.KnowsClass c)
    (htable : table.All a.registry.Knows) :
    K.Agrees a
      (fun b o o' => (b.registry.KnowsObject o ∧ o.cls = c) ∧ o' = o.rename b.toRenaming)
      (Eval.newObject c table)
      (Eval.newObject (c.rename a.toRenaming)
        (table.mapContents (Value.rename a.toRenaming))) := by
  refine .act fun s t h => ?_
  have hnone := h.fits.object s.properties.size (Nat.le_refl _)
  have hlater := Pairing.later_giveObject hnone c
  refine ⟨a.giveObject s.properties.size c, hlater, ?_, ⟨⟨Function.update_self .., ?_⟩, rfl⟩, ?_⟩
  · exact ⟨h.fits.giveObject c htable, hlater.registry.object h.object, h.onlyCalled,
      h.differs.pushProperties h.object_lt table, h.nextIdent⟩
  · exact hc.mono hlater.registry
  · exact congrArg (Object.mk · (c.rename a.toRenaming)) h.differs.size

theorem agrees_setOwnProperty (o : Object) (name : String) {v : Value}
    (hv : a.registry.Knows v) :
    K.Agrees a (fun _ _ _ => True) (Eval.setOwnProperty o name v)
      (Eval.setOwnProperty (o.rename a.toRenaming) name (v.rename a.toRenaming)) := by
  refine .act fun s t h => ⟨a, .refl a, ?_, trivial⟩
  exact h.of_stores (h.fits.stores.setProperty o.ident name hv)
    (h.differs.setProperty h.object_lt o.ident name v) (by simp) rfl rfl

/-- An own property of an object is the same in both runs, or a copy that the second does not
have. -/
theorem agrees_ownProperty? {o : Object} (ho : a.registry.KnowsObject o) (name : String) :
    K.Agrees a
      (fun b found found' => Option.Rel b.Values found found' ∨
        o = K.object ∧ name ∈ K.names ∧
          ∃ f, o.cls.own.methods.get? name = some f ∧ found = some (.function f) ∧ found' = none)
      (Eval.ownProperty? o name) (Eval.ownProperty? (o.rename a.toRenaming) name) := by
  refine .act fun s t h => ⟨a, .refl a, h, ?_⟩
  change Option.Rel a.Values (s.own? o.ident name) (t.own? o.ident name) ∨ _ ∧ _ ∧ ∃ f, _ ∧
    s.own? o.ident name = some (.function f) ∧ t.own? o.ident name = none
  have hsame (h' : t.own? o.ident name =
      (s.own? o.ident name).map (Value.rename a.toRenaming)) :
      Option.Rel a.Values (s.own? o.ident name) (t.own? o.ident name) := by
    rw [h']
    cases hfound : s.own? o.ident name with
    | none => exact .none
    | some v => exact .some ⟨h.fits.stores.property hfound, rfl⟩
  by_cases hi : o.ident = K.object.ident
  · have hcls : some o.cls = some K.object.cls := by rw [← ho.1, ← h.object, hi]
    obtain rfl : o = K.object := by
      obtain ⟨i, c⟩ := o
      cases hi
      cases hcls
      rfl
    have hentry := h.differs.entries name
    generalize hfound : s.own? K.object.ident name = found at hentry
    generalize hfound' : t.own? K.object.ident name = found' at hentry
    cases hentry with
    | same heq => exact .inl (hfound ▸ hfound' ▸ hsame (hfound' ▸ hfound ▸ heq))
    | copied hname hf => exact .inr ⟨rfl, hname, _, hf, rfl, rfl⟩
  · refine .inl (hsame ?_)
    unfold State.own?
    rw [h.differs.others _ hi]
    cases s.properties[o.ident]? with
    | none => rfl
    | some table => exact Table.get?_mapContents _ table name

/-! ### Values with an identity -/

theorem agrees_newArray {vs : List Value} (hvs : ∀ v ∈ vs, a.registry.Knows v) :
    K.AgreesOn a (Eval.newArray vs) (Eval.newArray (vs.map (Value.rename a.toRenaming))) := by
  refine (agrees_freshIdent (fun i => .array i vs) (by rintro _ _ ⟨⟩)).bind ?_
  rintro b i _ hb ⟨hi, rfl⟩
  refine .pure ⟨knows_array.mpr ⟨hi, fun v hv => (hvs v hv).mono hb.registry⟩, ?_⟩
  rw [Value.rename_array, hb.map_rename hvs]
  rfl

theorem agrees_newHash {pairs : List (Value × Value)}
    (hpairs : ∀ pair ∈ pairs, a.registry.Knows pair.1 ∧ a.registry.Knows pair.2) :
    K.AgreesOn a (Eval.newHash pairs)
      (Eval.newHash (pairs.map fun pair =>
        (pair.1.rename a.toRenaming, pair.2.rename a.toRenaming))) := by
  let rows := Table.ofList (pairs.map fun pair => (pair.1.inspect, pair))
  refine (agrees_freshIdent (fun i => .hash i rows) (by rintro _ _ ⟨⟩)).bind ?_
  rintro b i _ hb ⟨hi, rfl⟩
  refine .pure ⟨knows_hash.mpr ⟨hi, ?_⟩, ?_⟩
  · refine Table.All.ofList (Q := fun pair : Value × Value =>
      b.registry.Knows pair.1 ∧ b.registry.Knows pair.2) ?_
    intro row hrow
    obtain ⟨pair, hpair, rfl⟩ := List.mem_map.mp hrow
    exact ⟨(hpairs pair hpair).1.mono hb.registry, (hpairs pair hpair).2.mono hb.registry⟩
  · have hrename :
        pairs.map (fun pair => (pair.1.rename a.toRenaming, pair.2.rename a.toRenaming)) =
          pairs.map fun pair => (pair.1.rename b.toRenaming, pair.2.rename b.toRenaming) :=
      List.map_congr_left fun pair hpair => by
        rw [hb.rename (hpairs pair hpair).1, hb.rename (hpairs pair hpair).2]
    rw [hrename, Value.rename, Value.renameRows_eq_mapContents, ← Table.ofList_mapContents]
    simp [Table.mapContents, Function.comp_def]
    rfl

theorem agrees_newFunction (literal : FunctionLiteral) (scope : Nat)
    (hbody : K.OnlyCalled (Block.nodes literal.body)) :
    K.AgreesOn a (do return .function ⟨← Eval.freshIdent, literal, scope⟩)
      (do return .function ⟨← Eval.freshIdent, literal, scope⟩) := by
  refine (agrees_freshIdent (fun i => .function ⟨i, literal, scope⟩) ?_).bind ?_
  · rintro i _ ⟨⟩
    exact hbody
  · rintro b i _ - ⟨hi, rfl⟩
    exact .pure ⟨hi, rfl⟩

theorem agrees_boundMethod {f : Closure} {o : Object} {owner : Class}
    (hf : a.registry.KnowsClosure f) (ho : a.registry.KnowsObject o)
    (howner : a.registry.KnowsClass owner) :
    K.AgreesOn a (Eval.freshIdent >>= fun i => pure (.boundMethod i f o owner))
      (Eval.freshIdent >>= fun i => pure (.boundMethod i (f.rename a.toRenaming)
        (o.rename a.toRenaming) (owner.rename a.toRenaming))) := by
  refine (agrees_freshIdent (fun i => .boundMethod i f o owner) (by rintro _ _ ⟨⟩)).bind ?_
  rintro b i _ hb ⟨hi, rfl⟩
  have hknown : b.registry.Knows (.boundMethod i f o owner) :=
    ⟨hi, hb.registry.value hf, ho.mono hb.registry, howner.mono hb.registry⟩
  refine .pure ⟨hknown, ?_⟩
  rw [Value.rename, hb.renamesAlike.closure hf, hb.renamesAlike.obj ho, hb.renamesAlike.cls howner]
  rfl

/-! ### Names and properties -/

theorem agrees_lookupOrFail (scope : Nat) (name : String) (error : RuntimeError) :
    K.AgreesOn a (Eval.lookupOrFail scope name error) (Eval.lookupOrFail scope name error) := by
  refine (agrees_lookup scope name).bind fun b found found' _ hfound => ?_
  cases hfound with
  | none => exact agrees_fail error
  | some hv => exact .pure hv

theorem agrees_readName (scope : Nat) (name : String) :
    K.AgreesOn a (readName scope name) (readName scope name) := by
  rw [readName_eq]
  cases Builtin.ofName? name with
  | some b => exact agrees_plain trivial
  | none => exact agrees_lookupOrFail scope name _

/-- What the two runs read as a property: the same, or in the first a copy of a method, and in the
second the method bound to the object. -/
inductive Fetched (K : Copies) (a : Pairing) (target : Value) (name : String) :
    Value → Value → Prop where
  | given {v v' : Value} (h : a.Values v v') : Fetched K a target name v v'
  | copied {f : Closure} {i : Nat} (htarget : target = .object K.object) (hname : name ∈ K.names)
      (hf : a.registry.KnowsClosure f) (hobject : a.registry.KnowsObject K.object) :
      Fetched K a target name (.function f) (.boundMethod i (f.rename a.toRenaming)
        (K.object.rename a.toRenaming) (K.object.cls.rename a.toRenaming))

theorem Fetched.isSignal {target : Value} {name : String} {v v' : Value}
    (h : K.Fetched a target name v v') : v'.isSignal = v.isSignal := by
  cases h with
  | given h =>
      obtain ⟨-, rfl⟩ := h
      exact Value.isSignal_rename _ v
  | copied => rfl

theorem Fetched.later {b : Pairing} {target : Value} {name : String} {v v' : Value}
    (h : K.Fetched a target name v v') (hb : a.Later b) : K.Fetched b target name v v' := by
  cases h with
  | given h => exact .given (h.later hb)
  | copied htarget hname hf hobject =>
      rw [← hb.renamesAlike.closure hf, ← hb.renamesAlike.obj hobject,
        ← hb.renamesAlike.cls hobject.2]
      exact .copied htarget hname (hb.registry.value hf) (hobject.mono hb.registry)

theorem AgreesOn.fetched {x y : Eval Value} (h : K.AgreesOn a x y) {target : Value}
    {name : String} : K.Agrees a (fun b => K.Fetched b target name) x y :=
  h.mono fun _ _ _ _ hv => .given hv

section

variable {options : Options} {run : RunBody}

theorem agrees_fetchObject (scope : Nat) {o : Object} (name : String)
    (ho : a.registry.KnowsObject o) :
    K.Agrees a (fun b => K.Fetched b (.object o) name) (readProperty options scope (.object o) name)
      (readProperty options scope (.object (o.rename a.toRenaming)) name) := by
  refine (agrees_ownProperty? ho name).bind fun b found found' hb hfound => ?_
  have ho' : b.registry.KnowsObject o := ho.mono hb.registry
  have hcls : (o.rename a.toRenaming).cls = o.cls.rename b.toRenaming :=
    congrArg Object.cls (hb.renamesAlike.obj ho).symm
  rcases hfound with hfound | ⟨rfl, hname, f, hf, rfl, rfl⟩
  · cases hfound with
    | some hv => exact .pure (.given hv)
    | none =>
        dsimp only
        rw [hcls, Class.findMethod?_rename, ← hb.renamesAlike.obj ho]
        cases hmethod : o.cls.findMethod? options.walksSuperclasses name with
        | none => exact (agrees_fail _).fetched
        | some found =>
            obtain ⟨hf, howner⟩ := knows_findMethod? ho'.2 hmethod
            exact (agrees_boundMethod hf ho' howner).fetched
  · -- The second run finds nothing and goes to the class, whose own methods come first.
    have hmethod := Class.findMethod?_of_get? hf options.walksSuperclasses
    dsimp only
    rw [hcls, Class.findMethod?_rename, hmethod, ← hb.renamesAlike.obj ho]
    refine Agrees.skip fun c i hc => .pure ?_
    have hcopied : K.Fetched b (.object K.object) name (.function f) (.boundMethod i _ _ _) :=
      .copied rfl hname (knows_findMethod? ho'.2 hmethod).1 ho'
    exact hcopied.later hc

theorem agrees_readClass (scope : Nat) {c : Class} (name : String)
    (hc : a.registry.KnowsClass c) :
    K.AgreesOn a (readProperty options scope (.cls c) name)
      (readProperty options scope (.cls (c.rename a.toRenaming)) name) := by
  simp only [readProperty]
  split
  · rw [Class.findMethod?_rename]
    cases hmethod : c.findMethod? true name with
    | none => exact agrees_fail _
    | some found =>
        obtain ⟨hf, howner⟩ := knows_findMethod? hc hmethod
        refine (agrees_lookup scope "this").bind fun b r r' hb hr => ?_
        have hf' : b.registry.KnowsClosure found.1 := hb.registry.value hf
        have howner' := howner.mono hb.registry
        rw [← hb.renamesAlike.closure hf, ← hb.renamesAlike.cls howner]
        have hfunction : K.AgreesOn b (pure (.function found.1))
            (pure (.function (found.1.rename b.toRenaming))) := .pure ⟨hf', rfl⟩
        cases hr with
        | none => exact hfunction
        | @some v _ hv =>
            obtain ⟨hv, rfl⟩ := hv
            cases v with
            | object o => exact agrees_boundMethod hf' hv howner'
            | _ => exact hfunction
  · exact agrees_fail _

/-- Reading a property, as the callee of a call or otherwise. -/
theorem agrees_fetch (scope : Nat) {target : Value} (name : String)
    (htarget : a.registry.Knows target) :
    K.Agrees a (fun b => K.Fetched b target name) (readProperty options scope target name)
      (readProperty options scope (target.rename a.toRenaming) name) := by
  cases target with
  | object o => exact agrees_fetchObject scope name htarget
  | cls c => exact (agrees_readClass scope name htarget).fetched
  | hash i rows =>
      refine .pure (.given ⟨knows_content htarget name, ?_⟩)
      rw [Value.renameRows_eq_mapContents, Table.get?_mapContents]
      cases Table.get? rows name <;> rfl
  | _ => exact (agrees_fail _).fetched

/-- Reading a property that is none of the methods. -/
theorem agrees_readProperty (scope : Nat) {target : Value} {name : String} (hname : name ∉ K.names)
    (htarget : a.registry.Knows target) :
    K.AgreesOn a (readProperty options scope target name)
      (readProperty options scope (target.rename a.toRenaming) name) := by
  refine (agrees_fetch scope name htarget).mono fun b v v' _ hv => ?_
  cases hv with
  | given h => exact h
  | copied _ hmem _ _ => exact absurd hmem hname

theorem agrees_assignTo (scope : Nat) (name : String) {v : Value} (hv : a.registry.Knows v) :
    K.AgreesOn a (assignTo options scope name v)
      (assignTo options scope name (v.rename a.toRenaming)) := by
  refine (agrees_assignName scope name hv).bind ?_
  rintro b found _ hb rfl
  have hgiven : b.Values v (v.rename a.toRenaming) := Pairing.Values.later ⟨hv, rfl⟩ hb
  split
  · exact .pure hgiven
  · split
    · exact agrees_fail _
    · rw [hgiven.2]
      refine (agrees_bindName scope name hgiven.1).bind fun c _ _ hc _ => ?_
      exact .pure (Pairing.Values.later ⟨hgiven.1, rfl⟩ hc)

theorem agrees_assignProperty {target : Value} (name : String) {v : Value}
    (hv : a.registry.Knows v) :
    K.AgreesOn a (assignProperty target name v)
      (assignProperty (target.rename a.toRenaming) name (v.rename a.toRenaming)) := by
  cases target with
  | object o =>
      refine (agrees_setOwnProperty o name hv).bind fun b _ _ hb _ => ?_
      exact .pure (Pairing.Values.later ⟨hv, rfl⟩ hb)
  | _ => exact agrees_fail _

end

end Copies

end Scripting
