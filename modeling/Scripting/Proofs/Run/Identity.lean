import Scripting.Proofs.Run.Children
import Scripting.Proofs.Run.Ending
import Scripting.Proofs.Run.Judgment
import Scripting.Proofs.Run.Preservation
import Scripting.Proofs.Run.Registry

/-!
# Identities stand for one thing each

`x.Tracks w Q s` says that a run of `x` from `s` keeps a registry: the identities that `w` knows stay
what they are, the ones given on the way go into larger registries, one for each state passed
through, and what `x` gives satisfies `Q` in the last of them. There is a rule for each way of
putting computations together and for each act, and so every evaluation keeps the registry of the
state that it starts from (`Part.tracks_eval`).
-/

namespace Scripting

namespace Eval

open Registry

variable {α β γ : Type} {w : Registry} {s : State} {Q : Registry → α → Prop}

/-- A run that starts with a registry ends with a larger one, which extends those of the states on
the way, and the result satisfies `Q` in it. -/
def Tracks (w : Registry) (Q : Registry → α → Prop) (x : Eval α) (s : State) : Prop :=
  ∃ w', w.Extends w' ∧ w'.Fits (x.runOn s).2 ∧
    (∀ t, x.Passes s t → ∃ u : Registry, u.Extends w' ∧ u.Fits t) ∧
    ∀ a, (x.runOn s).1 = some a → Q w' a

namespace Tracks

theorem mono {Q' : Registry → α → Prop} {x : Eval α} (h : x.Tracks w Q s)
    (hQ : ∀ w' a, w.Extends w' → Q w' a → Q' w' a) : x.Tracks w Q' s := by
  obtain ⟨w', hext, hfits, hpasses, hresult⟩ := h
  exact ⟨w', hext, hfits, hpasses, fun a ha => hQ w' a hext (hresult a ha)⟩

theorem pure {a : α} (hs : w.Fits s) (ha : Q w a) : (pure a : Eval α).Tracks w Q s := by
  refine ⟨w, .refl w, hs, ?_, ?_⟩
  · rintro t ⟨⟩
    exact ⟨w, .refl w, hs⟩
  · rintro b ⟨⟩
    exact ha

theorem tooDeep (hs : w.Fits s) : (tooDeep : Eval α).Tracks w Q s := by
  refine ⟨w, .refl w, hs, ?_, ?_⟩
  · rintro t ⟨⟩
    exact ⟨w, .refl w, hs⟩
  · intro a ha
    cases ha

theorem act {f : State → α × State} {w' : Registry} (hs : w.Fits s) (hext : w.Extends w')
    (hfits : w'.Fits (f s).2) (hQ : Q w' (f s).1) : (act f).Tracks w Q s := by
  refine ⟨w', hext, hfits, ?_, ?_⟩
  · rintro t (rfl | rfl)
    · exact ⟨w, hext, hs⟩
    · exact ⟨w', .refl w', hfits⟩
  · rintro a ⟨⟩
    exact hQ

/-- What comes second runs with the registry that the first left. -/
theorem bind {Q' : Registry → β → Prop} {x : Eval α} {f : α → Eval β} (hx : x.Tracks w Q s)
    (hf : ∀ a t w', w.Extends w' → w'.Fits t → Q w' a → (f a).Tracks w' Q' t) :
    (x >>= f).Tracks w Q' s := by
  obtain ⟨w₁, hext, hfits, hpasses, hresult⟩ := hx
  obtain ⟨r, u, hu⟩ : ∃ r u, x.runOn s = (r, u) := ⟨_, _, rfl⟩
  rw [hu] at hfits hresult
  cases r with
  | none =>
      have hnone : (x >>= f).runOn s = (none, u) := by rw [runOn_bind, hu]
      refine ⟨w₁, hext, hnone ▸ hfits, ?_, fun b hb => ?_⟩
      · rintro t (ht | ⟨a, v, hv, -⟩)
        · exact hpasses t ht
        · cases hu.symm.trans hv
      · rw [hnone] at hb
        cases hb
  | some a =>
      obtain ⟨w₂, hext', hfits', hpasses', hresult'⟩ := hf a u w₁ hext hfits (hresult a rfl)
      have hsome : (x >>= f).runOn s = (f a).runOn u := runOn_bind_of_some hu
      refine ⟨w₂, hext.trans hext', hsome ▸ hfits', ?_, fun b hb => hresult' b (hsome ▸ hb)⟩
      rintro t (ht | ⟨b, v, hv, ht⟩)
      · obtain ⟨v, hv, hfits⟩ := hpasses t ht
        exact ⟨v, hv.trans hext', hfits⟩
      · cases hu.symm.trans hv
        exact hpasses' t ht

/-- Results one after another, each of which stays what it is in larger registries. -/
theorem mapM {f : γ → Eval α} (hf : ∀ c {w s}, w.Fits s → (f c).Tracks w Q s)
    (hQ : ∀ {w w' a}, w.Extends w' → Q w a → Q w' a) (cs : List γ) {w : Registry} {s : State}
    (hs : w.Fits s) : (cs.mapM f).Tracks w (fun w' as => ∀ a ∈ as, Q w' a) s := by
  induction cs generalizing w s with
  | nil =>
      rw [List.mapM_nil]
      exact .pure hs fun a ha => nomatch ha
  | cons c cs ih =>
      rw [List.mapM_cons]
      refine (hf c hs).bind fun a t w₁ _ ht ha => ?_
      refine (ih ht).bind fun as u w₂ hext hu has => ?_
      exact .pure hu (List.forall_mem_cons.mpr ⟨hQ hext ha, has⟩)

theorem forM {f : γ → Eval Unit}
    (hf : ∀ c {w s}, w.Fits s → (f c).Tracks w (fun _ _ => True) s) (cs : List γ) {w : Registry}
    {s : State} (hs : w.Fits s) : (cs.forM f).Tracks w (fun _ _ => True) s := by
  induction cs generalizing w s with
  | nil => exact .pure hs trivial
  | cons c cs ih => exact (hf c hs).bind fun _ _ _ _ ht _ => ih ht

theorem onValue {x : Eval Value} {f : Value → Eval Value} (hx : x.Tracks w Knows s)
    (hf : ∀ v t w', w.Extends w' → w'.Fits t → w'.Knows v → (f v).Tracks w' Knows t) :
    (x.onValue f).Tracks w Knows s := by
  refine hx.bind fun v t w' hext ht hv => ?_
  split
  · exact .pure ht hv
  · exact hf v t w' hext ht hv

end Tracks

/-! ### Acts -/

section

variable (hs : w.Fits s)
include hs

/-- A fresh identity may be given to the value that is made with it. -/
theorem tracks_freshIdent (make : Nat → Value) :
    freshIdent.Tracks w (fun w' i => w'.value i = some (make i)) s :=
  .act hs (extends_give (hs.value _ (Nat.le_refl _)) _) (hs.give (make s.nextIdent))
    (Function.update_self ..)

theorem tracks_newObject {c : Class} {table : Table Value} (hc : w.KnowsClass c)
    (htable : table.All w.Knows) :
    (newObject c table).Tracks w (fun w' o => w'.KnowsObject o ∧ o.cls = c) s := by
  have hext := extends_giveObject (hs.object _ (Nat.le_refl _)) c
  exact .act hs hext (hs.giveObject c htable) ⟨⟨Function.update_self .., hc.mono hext⟩, rfl⟩

theorem tracks_fail (e : RuntimeError) : (fail e).Tracks w Knows s :=
  .pure hs (knows_of_isPlain trivial)

theorem tracks_lookup (scope : Nat) (name : String) :
    (lookup scope name).Tracks w (fun w' r => ∀ v, r = some v → w'.Knows v) s :=
  .act hs (.refl w) hs fun _ hv => hs.stores.bindings.get? hv

theorem tracks_ownProperty? (o : Object) (name : String) :
    (ownProperty? o name).Tracks w (fun w' r => ∀ v, r = some v → w'.Knows v) s :=
  .act hs (.refl w) hs fun _ hv => hs.stores.property hv

theorem tracks_setOwnProperty (o : Object) (name : String) {v : Value} (hv : w.Knows v) :
    (setOwnProperty o name v).Tracks w (fun _ _ => True) s :=
  .act hs (.refl w) (hs.of_stores (hs.stores.setProperty o.ident name hv) rfl
    (Array.size_modify ..).symm) trivial

theorem tracks_bindName (scope : Nat) (name : String) {v : Value} (hv : w.Knows v) :
    (bindName scope name v).Tracks w (fun _ _ => True) s :=
  .act hs (.refl w) (hs.of_stores (hs.stores.withScopes (hs.stores.bindings.set scope name hv))
    rfl rfl) trivial

theorem tracks_assignName (scope : Nat) (name : String) {v : Value} (hv : w.Knows v) :
    (assignName scope name v).Tracks w (fun _ _ => True) s := by
  refine .act hs (.refl w) ?_ trivial
  split
  · exact hs
  · next h =>
      exact hs.of_stores (hs.stores.withScopes (hs.stores.bindings.assign? hv h)) rfl rfl

theorem tracks_enterScope (outer : Nat) {table : Table Value} (htable : table.All w.Knows) :
    (enterScope outer table).Tracks w (fun _ _ => True) s :=
  .act hs (.refl w) (hs.of_stores (hs.stores.withScopes (hs.stores.bindings.addInside outer htable))
    rfl rfl) trivial

theorem tracks_rootScope : rootScope.Tracks w (fun _ _ => True) s :=
  .act hs (.refl w) (hs.of_stores (hs.stores.withScopes hs.stores.bindings.addRoot) rfl rfl) trivial

theorem tracks_printLine (line : String) : (printLine line).Tracks w (fun _ _ => True) s :=
  .act hs (.refl w) (hs.of_stores ⟨hs.stores.bindings, hs.stores.properties⟩ rfl rfl) trivial

theorem tracks_newArray {vs : List Value} (hvs : ∀ v ∈ vs, w.Knows v) :
    (newArray vs).Tracks w Knows s := by
  refine (tracks_freshIdent hs fun i => .array i vs).bind fun i t w' hext ht hi => ?_
  exact .pure ht (knows_array.mpr ⟨hi, fun v hv => (hvs v hv).mono hext⟩)

theorem tracks_newHash {pairs : List (Value × Value)}
    (hpairs : ∀ pair ∈ pairs, w.Knows pair.1 ∧ w.Knows pair.2) :
    (newHash pairs).Tracks w Knows s := by
  let rows := Table.ofList (pairs.map fun pair => (pair.1.inspect, pair))
  refine (tracks_freshIdent hs fun i => .hash i rows).bind fun i t w' hext ht hi => ?_
  refine .pure ht (knows_hash.mpr ⟨hi, ?_⟩)
  refine Table.All.ofList (Q := fun pair : Value × Value => w'.Knows pair.1 ∧ w'.Knows pair.2) ?_
  intro row hrow
  obtain ⟨pair, hpair, rfl⟩ := List.mem_map.mp hrow
  exact ⟨(hpairs pair hpair).1.mono hext, (hpairs pair hpair).2.mono hext⟩

theorem tracks_lookupOrFail (scope : Nat) (name : String) (error : RuntimeError) :
    (lookupOrFail scope name error).Tracks w Knows s := by
  refine (tracks_lookup hs scope name).bind fun r t w' _ ht hr => ?_
  cases r with
  | none => exact tracks_fail ht error
  | some v => exact .pure ht (hr v rfl)

end

end Eval

open Eval Registry

/-- Bodies keep a registry. -/
def RunBody.Tracks (run : RunBody) : Prop :=
  ∀ (block : Block) (scope : Nat) {w : Registry} {s : State}, w.Fits s →
    (run block scope).Tracks w Knows s

/-! ### Calls, properties and objects -/

section

variable {options : Options} {run : RunBody} {w : Registry} {s : State}

theorem Registry.all_withSuper {table : Table Value} {owner : Class} (ht : table.All w.Knows)
    (howner : w.KnowsClass owner) : (withSuper table owner).All w.Knows := by
  unfold withSuper
  cases hk : owner.superclass? with
  | none => exact ht
  | some k =>
      have hparent : w.Knows (.cls k) :=
        knowsClass_of_mem howner (Class.superclass?_mem_lineage hk)
      exact ht.set "super" hparent

theorem Registry.all_callTable {f : Closure} {args : List Value} {receiver : Option Object}
    {owner : Option Class} (hargs : ∀ v ∈ args, w.Knows v)
    (hreceiver : ∀ o, receiver = some o → w.KnowsObject o)
    (howner : ∀ c, owner = some c → w.KnowsClass c) :
    (callTable options f args receiver owner).All w.Knows := by
  have hbindings : (callBindings f.params args receiver).All w.Knows :=
    Invariant.all_callBindings f.params hargs hreceiver
  unfold callTable
  split
  · exact hbindings
  · next c =>
      split
      · exact all_withSuper hbindings (howner c rfl)
      · exact hbindings

variable (hs : w.Fits s)
include hs

theorem tracks_boundMethod {f : Closure} {o : Object} {owner : Class} (hf : w.KnowsClosure f)
    (ho : w.KnowsObject o) (howner : w.KnowsClass owner) :
    Eval.Tracks w Knows (do return .boundMethod (← Eval.freshIdent) f o owner) s := by
  refine (tracks_freshIdent hs fun i => .boundMethod i f o owner).bind
    fun i t w' hext ht hi => .pure ht ?_
  exact ⟨hi, hext.value hf, ho.mono hext, howner.mono hext⟩

theorem tracks_readProperty (scope : Nat) {target : Value} (name : String)
    (htarget : w.Knows target) : (readProperty options scope target name).Tracks w Knows s := by
  unfold readProperty
  split
  · next o =>
      have ho : w.KnowsObject o := htarget
      refine (tracks_ownProperty? hs o name).bind fun r t w' hext ht hr => ?_
      cases r with
      | some v => exact .pure ht (hr v rfl)
      | none =>
          dsimp only
          split
          · next method owner hfound =>
              obtain ⟨hmethod, howner⟩ := knows_findMethod? (ho.mono hext).2 hfound
              exact tracks_boundMethod ht hmethod (ho.mono hext) howner
          · exact tracks_fail ht _
  · exact .pure hs (knows_content htarget name)
  · next c =>
      have hc : w.KnowsClass c := htarget
      split
      · split
        · exact tracks_fail hs _
        · next method owner hfound =>
            refine (tracks_lookup hs scope "this").bind fun r t w' hext ht hr => ?_
            obtain ⟨hmethod, howner⟩ := knows_findMethod? (hc.mono hext) hfound
            split
            · next o => exact tracks_boundMethod ht hmethod (hr _ rfl) howner
            · exact .pure ht hmethod
      · exact tracks_fail hs _
  · exact tracks_fail hs _

theorem tracks_builtin (b : Builtin) {args : List Value} (hargs : ∀ v ∈ args, w.Knows v) :
    (b.call args).Tracks w Knows s := by
  unfold Builtin.call
  split
  · refine (Tracks.forM (fun _ _ _ hs => tracks_printLine hs _) args hs).bind fun _ t w' _ ht _ => ?_
    exact .pure ht (knows_of_isPlain trivial)
  · exact .pure hs (knows_of_isPlain trivial)
  · exact .pure hs (knows_of_isPlain trivial)
  · exact tracks_fail hs _
  · exact tracks_fail hs _
  · next i elements last =>
      refine tracks_newArray hs fun v hv => ?_
      rcases List.mem_append.mp hv with hv | hv
      · exact (knows_array.mp (hargs _ List.mem_cons_self)).2 v hv
      · exact hargs v (List.mem_cons_of_mem _ hv)
  · exact tracks_fail hs _
  · exact tracks_fail hs _

variable (hrun : run.Tracks)
include hrun

theorem tracks_callFunction (f : Closure) {args : List Value} {receiver : Option Object}
    {owner : Option Class} (hargs : ∀ v ∈ args, w.Knows v)
    (hreceiver : ∀ o, receiver = some o → w.KnowsObject o)
    (howner : ∀ c, owner = some c → w.KnowsClass c) :
    (callFunction options run f args receiver owner).Tracks w Knows s := by
  rw [callFunction_eq]
  refine (tracks_enterScope hs f.scope (all_callTable hargs hreceiver howner)).bind
    fun scope t w' _ ht _ => ?_
  refine (hrun f.body scope ht).bind fun v u w' _ hu hv => ?_
  exact .pure hu (knows_unwrapReturn hv)

theorem tracks_callValue {callee : Value} {args : List Value} {receiver : Option Object}
    (hcallee : w.Knows callee) (hargs : ∀ v ∈ args, w.Knows v)
    (hreceiver : ∀ o, receiver = some o → w.KnowsObject o) :
    (callValue options run callee args receiver).Tracks w Knows s := by
  unfold callValue
  split
  · next i method o owner =>
      obtain ⟨-, -, ho, howner⟩ : w.KnowsAt (.boundMethod i method o owner) := hcallee
      refine tracks_callFunction hs hrun method hargs ?_ ?_
      · rintro _ ⟨⟩
        exact ho
      · rintro _ ⟨⟩
        exact howner
  · next f =>
      refine tracks_callFunction hs hrun f hargs hreceiver fun c hc => ?_
      obtain ⟨o, ho, rfl⟩ := Option.map_eq_some_iff.mp hc
      exact (hreceiver o ho).2
  · exact tracks_builtin hs _ hargs
  · exact tracks_fail hs _

theorem tracks_makeObject {callee : Value} {args : List Value} (hcallee : w.Knows callee)
    (hargs : ∀ v ∈ args, w.Knows v) :
    (makeObject options run callee args).Tracks w Knows s := by
  unfold makeObject
  split
  · next c =>
      have hc : w.KnowsClass c := hcallee
      have hmethods : Table.All w.Knows
          (c.own.methods.map fun row => (row.1, Value.function row.2)) := by
        intro row hrow
        obtain ⟨method, hmethod, rfl⟩ := List.mem_map.mp hrow
        exact (hc c c.mem_lineage_self).2 method hmethod
      refine (tracks_newObject hs hc hmethods).bind fun o t w' hext ht ho => ?_
      split
      · exact .pure ht ho.1
      · next method owner hfound =>
          have howner : w'.KnowsClass owner := (knows_findMethod? (hc.mono hext) hfound).2
          have hargs' : ∀ v ∈ args, w'.Knows v := fun v hv => (hargs v hv).mono hext
          have htable : (withSuper (callBindings method.params args (some o)) owner).All
              w'.Knows := by
            refine all_withSuper (Invariant.all_callBindings method.params hargs' ?_) howner
            rintro _ ⟨⟩
            exact ho.1
          refine (tracks_enterScope ht method.scope htable).bind fun scope u w₁ hext₁ hu _ => ?_
          refine (hrun method.body scope hu).bind fun v u w₂ hext₂ hu hv => ?_
          split
          · exact .pure hu hv
          · exact .pure hu ((ho.1.mono hext₁).mono hext₂)
  · exact tracks_fail hs _

end

/-! ### Nodes -/

namespace Part

variable {options : Options} {run : RunBody} {scope : Nat} {w : Registry} {s : State}

theorem tracks_assignTo (hs : w.Fits s) (name : String) {v : Value} (hv : w.Knows v) :
    (assignTo options scope name v).Tracks w Knows s := by
  refine (tracks_assignName hs scope name hv).bind fun found t w' hext ht _ => ?_
  split
  · exact .pure ht (hv.mono hext)
  · split
    · exact tracks_fail ht _
    · refine (tracks_bindName ht scope name (hv.mono hext)).bind fun _ u w₁ hext₁ hu _ => ?_
      exact .pure hu ((hv.mono hext).mono hext₁)

theorem tracks_bindClass (hs : w.Fits s) (name : String)
    (methods : List (String × FunctionLiteral)) {ancestors : List ClassBody}
    (hancestors : ancestors = [] ∨ ∃ c : Class, w.KnowsClass c ∧ ancestors = c.own :: c.ancestors) :
    (bindClass scope name methods ancestors).Tracks w Knows s := by
  have hclosure (row : String × FunctionLiteral) {w : Registry} {s : State} (hs : w.Fits s) :
      Eval.Tracks w (fun w' (closure : String × Closure) => w'.KnowsClosure closure.2) (do
        return (row.1, { ident := ← Eval.freshIdent, literal := row.2, scope := scope })) s :=
    (tracks_freshIdent hs fun i => .function ⟨i, row.2, scope⟩).bind fun i t w' _ ht hi =>
      .pure ht hi
  have hgrow {w w' : Registry} {closure : String × Closure} (hext : w.Extends w')
      (h : w.KnowsClosure closure.2) : w'.KnowsClosure closure.2 := hext.value h
  refine (Tracks.mapM hclosure hgrow methods hs).bind fun closures t w₁ hext₁ ht hclosures => ?_
  let k (i : Nat) : Class := ⟨⟨i, name, Table.ofList closures⟩, ancestors⟩
  refine (tracks_freshIdent ht fun i => .cls (k i)).bind fun i u w₂ hext₂ hu hi => ?_
  have hk : w₂.KnowsClass (k i) := by
    refine knowsClass_of_own hi ((Table.All.ofList hclosures).mono fun _ => hext₂.value) ?_
    refine hancestors.imp_right ?_
    rintro ⟨c, hc, rfl⟩
    exact ⟨c, hc.mono (hext₁.trans hext₂), rfl⟩
  refine (tracks_bindName (v := .cls (k i)) hu scope name hk).bind fun _ _ _ _ ht _ => ?_
  exact .pure ht (knows_of_isPlain trivial)

theorem tracks_lastStep (hrun : run.Tracks) {node : Part} {vs : List Value} {x : Eval Value}
    (h : LastStep options run scope node vs x) (hs : w.Fits s) (hvs : ∀ v ∈ vs, w.Knows v)
    (hnode : ∀ target name, node = .property target name → w.Knows target) :
    x.Tracks w Knows s := by
  cases h with
  | @bare v hv => exact .pure hs (knows_of_isPlain (by cases v <;> trivial))
  | given hv => exact .pure hs (hvs _ hv)
  | returned hv =>
      refine .pure hs (knows_returned.mpr ?_)
      rcases hv with rfl | hv
      · exact knows_of_isPlain trivial
      · exact hvs _ hv
  | builtin b => exact .pure hs (knows_of_isPlain trivial)
  | index htarget _ => exact .pure hs (knows_index (hvs _ htarget) _)
  | unary _ => exact .pure hs (knows_of_isPlain (Value.isPlain_unary _ _))
  | binary _ _ => exact .pure hs (knows_of_isPlain (Value.isPlain_binary _ _ _))
  | fail _ => exact tracks_fail hs _
  | noClass _ => exact tracks_fail hs _
  | array => exact tracks_newArray hs hvs
  | hash =>
      refine tracks_newHash hs fun pair hpair => ?_
      have hmem := mem_of_mem_inPairs hpair
      exact ⟨hvs _ hmem.1, hvs _ hmem.2⟩
  | function literal =>
      exact (tracks_freshIdent hs fun i => .function ⟨i, literal, scope⟩).bind
        fun i t w' _ ht hi => .pure ht hi
  | lookup name _ => exact tracks_lookupOrFail hs scope name _
  | property name h =>
      exact tracks_readProperty hs scope name (h.elim (hvs _) (hnode _ name))
  | assignName name hv => exact tracks_assignTo hs name (hvs _ hv)
  | @assignProperty name v target hv htarget =>
      cases target with
      | object o =>
          refine (tracks_setOwnProperty hs o name (hvs _ hv)).bind fun _ t w' hext ht _ => ?_
          exact .pure ht ((hvs _ hv).mono hext)
      | _ => exact tracks_fail hs _
  | new hcallee hargs =>
      exact tracks_makeObject hs hrun (hvs _ hcallee) fun v hv => hvs v (hargs hv)
  | call hfunction hargs hreceiver =>
      exact tracks_callValue hs hrun (hvs _ hfunction) (fun v hv => hvs v (hargs hv))
        fun o ho => hvs _ (hreceiver o ho)
  | bind _ hv =>
      refine (tracks_bindName hs scope _ (hvs _ hv)).bind fun _ t w' _ ht _ => ?_
      exact .pure ht (knows_of_isPlain trivial)
  | bindClass _ hancestors =>
      refine tracks_bindClass hs _ _ (hancestors.imp_right ?_)
      rintro ⟨c, hc, rfl⟩
      exact ⟨c, hvs _ hc, rfl⟩

/-- Keeping a registry is a judgment, in situations that are a registry and a state which it fits. -/
def keepsRegistry (options : Options) {run : RunBody} (scope : Nat) (hrun : run.Tracks) :
    Judgment options run scope (Registry × State) where
  Judged _ a x := x.Tracks a.1 Knows a.2
  Later _ a b := a.1.Extends b.1 ∧ b.1.Fits b.2
  Admitted a node :=
    a.1.Fits a.2 ∧ ∀ target name, node = .property target name → a.1.Knows target
  Good a v := a.1.Knows v
  trans h h' := ⟨h.1.trans h'.1, h'.2⟩
  stay h := ⟨.refl _, h.2⟩
  start h := ⟨.refl _, h.1⟩
  admitted h h' := ⟨h'.2, fun target name heq => (h.2 target name heq).mono h'.1⟩
  good h hv := hv.mono h.1
  onValue hx hf := hx.onValue fun v t w' hext ht hv => hf v (w', t) ⟨hext, ht⟩ hv
  part_admitted h hvs hpart := by
    refine ⟨h.1, ?_⟩
    rintro target name rfl
    rcases mem_children_or_property hpart with hchild | ⟨v, hv, _, heq⟩
    · exact absurd hchild property_notMem_children
    · cases heq
      exact hvs _ hv
  part_judged _ h := h
  finish h hvs hlength := tracks_lastStep hrun (lastStep_finish hlength) h.1 hvs h.2

/-- Every node keeps a registry, and a property of a value does if the value is known. -/
theorem tracks_eval (hrun : run.Tracks) (node : Part) (hs : w.Fits s)
    (hnode : ∀ target name, node = .property target name → w.Knows target) :
    (node.eval options run scope).Tracks w Knows s :=
  (keepsRegistry options scope hrun).judged_eval (a := (w, s)) ⟨hs, hnode⟩

end Part

end Scripting
