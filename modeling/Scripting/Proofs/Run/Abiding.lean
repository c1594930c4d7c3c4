import Scripting.Proofs.Run.Conduct
import Scripting.Proofs.Run.Started

/-!
# Scripts that keep to a conduct

A node whose parts gave safe values keeps to the conduct in its last step, if the body that it runs
does (`Conduct.keeps_ending`); and a node that is admitted has admitted parts only. So by induction
along the evaluations that one starts, all of them lead from tidy states to tidy states and give
safe values (`Conduct.Admitted.follows`), as long as what is measured may be measured.
-/

namespace Scripting

open Eval

namespace Conduct

variable {κ : Conduct} {s t : State} {options : Options} {run : RunBody}

/-! ### Calls -/

theorem leads_calledBody? {callee : Value} {args : List Value} {receiver : Option Object}
    {a : Activation} (hs : κ.Tidy s) (hcallee : κ.Safe s callee) (hargs : ∀ v ∈ args, κ.Safe s v)
    (hreceiver : ∀ o ∈ receiver, κ.Safe s (.object o))
    (h : calledBody? options callee args receiver s = some a) :
    κ.Leads s a.state ∧ κ.node (.block a.body) := by
  cases callee with
  | function f =>
      cases h
      refine ⟨leads_withScope hs f.scope (binds_callTable hcallee hargs hreceiver ?_),
        κ.body hcallee⟩
      intro c hc
      obtain ⟨o, ho, rfl⟩ := Option.map_eq_some_iff.mp hc
      exact (hreceiver o ho).head.1
  | boundMethod i f o owner =>
      cases h
      obtain ⟨hf, ho, howner, -⟩ := hcallee.head
      refine ⟨leads_withScope hs f.scope (binds_callTable hf hargs ?_ ?_), κ.body hf⟩
      · rintro o' ⟨⟩
        exact ho
      · rintro c ⟨⟩
        exact howner
  | _ => cases h

/-- The scope in which a constructor runs leads to a tidy state. -/
theorem leads_constructorTable {c owner : Class} {method : Closure} {args : List Value}
    {walk : Bool} {name : String} (hs : κ.Tidy s) (hc : κ.Safe s (.cls c))
    (hargs : ∀ v ∈ args, κ.Safe s v) (hmethod : c.findMethod? walk name = some (method, owner)) :
    κ.literal method.literal ∧ κ.Leads (s.withObject c) ((s.withObject c).withScope method.scope
      (constructorTable method args ⟨s.properties.size, c⟩ owner)) := by
  obtain ⟨hobject, ho⟩ := leads_withObject hs hc
  obtain ⟨hliteral, howner⟩ := safe_method (Safe.leads hc hobject) hmethod
  have hreceiver : ∀ o ∈ some (⟨s.properties.size, c⟩ : Object),
      κ.Safe (s.withObject c) (.object o) := by
    rintro o ⟨⟩
    exact ho
  have hbindings := binds_callBindings (κ.params hliteral) (Safe.all_leads hargs hobject) hreceiver
  exact ⟨hliteral,
    leads_withScope hobject.tidy method.scope (binds_withSuper hbindings howner)⟩

theorem leads_constructorBody? {callee : Value} {args : List Value} {a : Activation}
    (hs : κ.Tidy s) (hcallee : κ.Safe s callee) (hargs : ∀ v ∈ args, κ.Safe s v)
    (h : constructorBody? options callee args s = some a) :
    κ.Leads s a.state ∧ κ.node (.block a.body) := by
  cases callee with
  | cls c =>
      obtain ⟨⟨method, owner⟩, hmethod, rfl⟩ := Option.map_eq_some_iff.mp h
      obtain ⟨hliteral, hscope⟩ := leads_constructorTable hs hcallee hargs hmethod
      exact ⟨course.trans (leads_withObject hs hcallee).1 hscope, κ.body hliteral⟩
  | _ => cases h

/-- A call whose body keeps to it does. -/
theorem keeps_callFunction {f : Closure} {args : List Value} {receiver : Option Object}
    {owner : Option Class} (hs : κ.Tidy s)
    (henter : κ.Leads s (s.withScope f.scope (callTable options f args receiver owner)))
    (hbody : κ.Keeps (run f.body s.scopes.size)
      (s.withScope f.scope (callTable options f args receiver owner))) :
    κ.Keeps (callFunction options run f args receiver owner) s := by
  rw [callFunction_eq]
  have hscope : (enterScope f.scope (callTable options f args receiver owner)).Follows κ.Leads
      (fun t scope => scope = s.scopes.size ∧
        t = s.withScope f.scope (callTable options f args receiver owner)) s :=
    Follows.act hs.stay henter ⟨rfl, rfl⟩
  refine andThen hscope fun scope t _ hentered => ?_
  obtain ⟨rfl, rfl⟩ := hentered
  exact andThen hbody fun v u hu hv => keeps_pure hu.tidy (safe_unwrapReturn hv)

theorem keeps_callValue {callee : Value} {args : List Value} {receiver : Option Object}
    (hs : κ.Tidy s) (hcallee : κ.Safe s callee) (hargs : ∀ v ∈ args, κ.Safe s v)
    (hmeasured : ∀ v ∈ args, κ.measured v) (hreceiver : ∀ o ∈ receiver, κ.Safe s (.object o))
    (hbody : ∀ a, calledBody? options callee args receiver s = some a →
      κ.Keeps (run a.body a.scope) a.state) :
    κ.Keeps (callValue options run callee args receiver) s := by
  have henter {a : Activation} (ha : calledBody? options callee args receiver s = some a) :
      κ.Leads s a.state := (leads_calledBody? hs hcallee hargs hreceiver ha).1
  cases callee with
  | function f => exact keeps_callFunction hs (henter rfl) (hbody _ rfl)
  | boundMethod i f o owner => exact keeps_callFunction hs (henter rfl) (hbody _ rfl)
  | builtin b => exact keeps_builtin hs b hargs hmeasured
  | _ => exact keeps_pure hs (safe_failed _)

theorem keeps_makeObject {callee : Value} {args : List Value} (hs : κ.Tidy s)
    (hcallee : κ.Safe s callee) (hargs : ∀ v ∈ args, κ.Safe s v)
    (hbody : ∀ a, constructorBody? options callee args s = some a →
      κ.Keeps (run a.body a.scope) a.state) :
    κ.Keeps (makeObject options run callee args) s := by
  cases callee with
  | cls c =>
      obtain ⟨hmade, ho⟩ := leads_withObject hs hcallee
      have hobject : (newObject c (c.own.methods.map fun row =>
          (row.1, .function row.2))).Follows κ.Leads
          (fun t o => o = ⟨s.properties.size, c⟩ ∧ t = s.withObject c) s :=
        Follows.act hs.stay hmade ⟨rfl, rfl⟩
      unfold makeObject
      refine andThen hobject fun o t ht hnew => ?_
      obtain ⟨rfl, rfl⟩ := hnew
      cases hmethod : c.findMethod? options.walksSuperclasses "constructor" with
      | none => exact keeps_pure ht.tidy ho
      | some found =>
          obtain ⟨method, owner⟩ := found
          have ha : constructorBody? options (.cls c) args s =
              some (method.activation (constructorTable method args ⟨s.properties.size, c⟩ owner)
                (s.withObject c)) := by
            rw [constructorBody?, hmethod]
            rfl
          have hscope : (enterScope method.scope
              (constructorTable method args ⟨s.properties.size, c⟩ owner)).Follows κ.Leads
              (fun u scope => scope = s.scopes.size ∧ u = (s.withObject c).withScope method.scope
                (constructorTable method args ⟨s.properties.size, c⟩ owner)) (s.withObject c) :=
            Follows.act ht.tidy.stay (leads_constructorTable hs hcallee hargs hmethod).2 ⟨rfl, rfl⟩
          refine andThen hscope fun scope u hu hentered => ?_
          obtain ⟨rfl, rfl⟩ := hentered
          refine andThen (hbody _ ha) fun result w hw hresult => ?_
          split
          · exact keeps_pure hw.tidy hresult
          · exact keeps_pure hw.tidy (Safe.leads (Safe.leads ho hu) hw)
  | _ => exact keeps_pure hs (safe_failed _)

/-! ### Nodes -/

variable {scope : Nat} {node : Part} {vs : List Value} {a : Activation}

/-- A body that a node runs is admitted, and the state in which it starts is tidy. -/
theorem leads_activation? (hs : κ.Tidy s) (hvs : ∀ v ∈ vs, κ.Safe s v)
    (h : node.activation? options vs s = some a) :
    κ.Leads s a.state ∧ κ.node (.block a.body) := by
  unfold Part.activation? at h
  split at h
  · next callee args =>
      obtain ⟨hcallee, hargs⟩ := List.forall_mem_cons.mp hvs
      exact leads_constructorBody? hs hcallee hargs h
  · next target function args =>
      obtain ⟨htarget, hrest⟩ := List.forall_mem_cons.mp hvs
      obtain ⟨hfunction, hargs⟩ := List.forall_mem_cons.mp hrest
      refine leads_calledBody? hs hfunction hargs (fun o ho => ?_) h
      cases target with
      | object o' => exact Option.mem_some_iff.mp ho ▸ htarget
      | _ => cases ho
  · next function args _ =>
      obtain ⟨hfunction, hargs⟩ := List.forall_mem_cons.mp hvs
      refine leads_calledBody? hs hfunction hargs (fun o ho => ?_) h
      cases ho
  · cases h

/-- The last step of a node keeps to it if the node is admitted, its parts gave safe values, what it
assigns to is free and the body that it runs, if any, keeps to it. -/
theorem keeps_ending {x : Eval Value} (hs : κ.Tidy s) (hnode : κ.Admits s node)
    (hvs : ∀ v ∈ vs, κ.Safe s v) (hmeasured : ∀ v ∈ vs, κ.measured v)
    (hfree : ∀ object value name v o, node = .expr (.assign (.property object name) value) →
      vs = [v, .object o] → κ.free o name)
    (hbody : ∀ a, node.activation? options vs s = some a → κ.Keeps (run a.body a.scope) a.state)
    (h : Ending options run scope node vs x) : κ.Keeps x s := by
  cases h with
  | literal n hn =>
      subst hn
      exact keeps_pure hs (κ.int hnode)
  | bare hv hne => exact keeps_pure hs (safe_of_isBare hv hne)
  | given hv => exact keeps_pure hs (hvs _ hv)
  | returned hv =>
      refine keeps_pure hs (safe_returned.mpr ?_)
      rcases hv with rfl | hv
      · trivial
      · exact hvs _ hv
  | builtin b => exact keeps_pure hs trivial
  | index htarget _ => exact keeps_pure hs (safe_index (hvs _ htarget) _)
  | unary _ => exact keeps_pure hs (safe_unary _ _)
  | binary _ _ => exact keeps_pure hs (safe_binary _ _ _)
  | fail _ => exact keeps_pure hs (safe_failed _)
  | noClass _ => exact keeps_pure hs (safe_failed _)
  | array => exact keeps_newArray hs hvs
  | hash =>
      refine keeps_newHash hs fun pair hpair => ?_
      obtain ⟨hkey, hvalue⟩ := Part.mem_of_mem_inPairs hpair
      exact ⟨hvs _ hkey, hvs _ hvalue⟩
  | function hn =>
      subst hn
      exact andThen (leads_freshIdent hs) fun _ _ ht _ => keeps_pure ht.tidy (κ.function hnode)
  | lookup name _ => exact keeps_lookupOrFail hs scope name _
  | property name htarget =>
      rcases htarget with htarget | rfl
      · exact keeps_readProperty hs scope name (hvs _ htarget)
      · exact keeps_readProperty hs scope name hnode
  | assignName hn hv =>
      subst hn
      exact keeps_assignTo hs scope (κ.assign hnode) (hvs _ hv)
  | assignProperty hn hvalues =>
      subst hvalues
      refine keeps_assignProperty hs (fun o ho => ?_) (hvs _ List.mem_cons_self)
      subst ho
      exact hfree _ _ _ _ o hn rfl
  | new hvalues hbody' =>
      subst hvalues
      obtain ⟨hcallee, hargs⟩ := List.forall_mem_cons.mp hvs
      exact keeps_makeObject hs hcallee hargs fun a ha => hbody a ((hbody' s).trans ha)
  | call hfunction hargs hreceiver hbody' =>
      exact keeps_callValue hs (hvs _ hfunction) (fun v hv => hvs v (hargs hv))
        (fun v hv => hmeasured v (hargs hv)) (fun o ho => hvs _ (hreceiver o ho))
        fun a ha => hbody a ((hbody' s).trans ha)
  | bind hn hv =>
      subst hn
      exact andThen (leads_bindName hs scope (κ.letIn hnode) (hvs _ hv)) fun _ _ ht _ =>
        keeps_pure ht.tidy trivial
  | bindClass hn hancestors =>
      subst hn
      obtain ⟨hname, hmethods⟩ := κ.classDef hnode
      refine keeps_bindClass hs scope hname hmethods ?_
      rcases hancestors with rfl | ⟨c, hc, rfl⟩
      · exact fun _ hk => nomatch hk
      · intro k hk row hrow
        exact hvs _ hc row.2 ((c.mem_closures _).mpr ⟨k, hk, row, hrow, rfl⟩)

/-! ### Evaluations -/

variable (κ) in
/-- What is asked of an evaluation where it starts: of the state and of its node. -/
structure Ready (e : Evaluation) : Prop where
  tidy : κ.Tidy e.state
  node : κ.Admits e.state e.node

variable (κ) in
/-- What an evaluation and all that it starts measure may be measured, and what they assign to is
free. -/
def Obeyed (options : Options) (e : Evaluation) : Prop :=
  e.GivesOnly options κ.measured ∧ e.AssignsOnly options κ.free

variable (κ) in
/-- What is asked of an evaluation: of its start, and of all that it starts. -/
structure Admitted (options : Options) (e : Evaluation) : Prop extends κ.Ready e where
  obeyed : κ.Obeyed options e

theorem Obeyed.starts {outer inner : Evaluation} (h : κ.Obeyed options outer)
    (hstarts : outer.Starts options inner) : κ.Obeyed options inner :=
  ⟨h.1.starts hstarts, h.2.starts hstarts⟩

/-- A part of an admitted node is admitted. -/
theorem admits_part {part : Part} (hnode : κ.Admits t node) (hvs : ∀ v ∈ vs, κ.Safe s v)
    (h : part ∈ node.parts vs) : κ.Admits s part := by
  rcases Part.mem_children_or_property h with h | ⟨target, htarget, name, rfl⟩
  · have hchild : κ.node part := by
      cases node with
      | property target name => exact absurd h List.not_mem_nil
      | _ => exact κ.child hnode h
    cases part with
    | property target name => exact absurd h Part.property_notMem_children
    | _ => exact hchild
  · exact hvs _ htarget

theorem Admits.leads (hnode : κ.Admits s node) (h : κ.Leads s t) : κ.Admits t node := by
  cases node with
  | property target name => exact Safe.leads hnode h
  | _ => exact hnode

variable (κ) in
/-- A part is ready behind parts that gave safe values. -/
theorem carried (options : Options) : Evaluation.Carried options κ.Ready κ.Leads
    (fun s v => κ.Safe s v ∧ κ.measured v) where
  course := course
  start h := h.tidy.stay
  value h hv := ⟨Safe.leads hv.1 h, hv.2⟩
  part h _ hcourse hvs hpart :=
    ⟨hcourse.tidy, admits_part h.node (fun v hv => (hvs v hv).1) hpart⟩

/-- A body is ready behind the parts of the node that runs it. -/
theorem Ready.body {depth : Nat} (h : κ.Tidy t) (hvs : ∀ v ∈ vs, κ.Safe t v)
    (ha : node.activation? options vs t = some a) :
    κ.Ready ⟨depth, .block a.body, a.scope, a.state⟩ := by
  obtain ⟨henter, hbody⟩ := leads_activation? h hvs ha
  exact ⟨henter.tidy, hbody⟩

variable (κ) in
/-- Evaluations keep to a conduct. -/
theorem held (options : Options) : Evaluation.Held options (κ.Admitted options) κ.Leads
    (fun s v => κ.Safe s v ∧ κ.measured v) where
  course := course
  start h := h.tidy.stay
  value := (κ.carried options).value
  part h hstarts hcourse hvs hpart :=
    ⟨(κ.carried options).part h.toReady hstarts hcourse hvs hpart, h.obeyed.starts hstarts⟩
  enter h _ hcourse hvs ha := (leads_activation? hcourse.tidy (fun v hv => (hvs v hv).1) ha).1
  body h hgives hcourse hvs ha :=
    ⟨.body hcourse.tidy (fun v hv => (hvs v hv).1) ha, h.obeyed.starts (.body ⟨_, _, hgives, ha⟩)⟩
  finish := by
    intro depth scope node s t vs h hgives hcourse hvs hbody
    have hending : Ending options (runBody options depth) scope node vs
        (node.finish options (runBody options depth) scope vs) :=
      Part.ending_finish hgives.length_eq
    obtain ⟨hmeasures, hassigns⟩ := h.obeyed
    have hfree (object value : Expr) (name : String) (v : Value) (o : Object)
        (hnode : node = .expr (.assign (.property object name) value))
        (hvs : vs = [v, .object o]) : κ.free o name := by
      subst hvs
      exact hassigns _ .refl o name ⟨object, value, v, t, hnode, hgives⟩
    have hkeeps := keeps_ending hcourse.tidy (Admits.leads h.node hcourse)
      (fun v hv => (hvs v hv).1) (fun v hv => (hvs v hv).2) hfree
      (fun a ha => (hbody a ha).mono (fun _ hu => hu) fun _ _ _ hv => hv.1) hending
    refine ⟨fun u hu => hkeeps.passes hu, fun v u hv => ⟨(hkeeps.result hv).2, ?_⟩⟩
    exact hmeasures _ .refl v u (hgives.runOn_eval.trans hv)

/-- An admitted evaluation leads to tidy states only and gives a safe value. -/
theorem Admitted.follows {e : Evaluation} (he : κ.Admitted options e) :
    (e.node.eval options (runBody options e.depth) e.scope).Follows κ.Leads κ.Safe e.state :=
  ((κ.held options).follows he).mono (fun _ h => h) fun _ _ _ hv => hv.1

/-- What an admitted evaluation starts, itself or through others, is admitted. -/
theorem Admitted.started {outer inner : Evaluation} (houter : κ.Admitted options outer)
    (h : Relation.ReflTransGen (Evaluation.Starts options) outer inner) :
    κ.Admitted options inner ∧ κ.Leads outer.state inner.state :=
  (κ.held options).started houter h

/-- The values of the parts of an admitted node are safe where its last step starts. -/
theorem Admitted.gives {depth : Nat} (h : κ.Admitted options ⟨depth, node, scope, s⟩)
    (hgives : Part.Gives options (runBody options depth) scope (node.parts vs) s vs t) :
    κ.Leads s t ∧ ∀ v ∈ vs, κ.Safe t v := by
  obtain ⟨hcourse, hvs⟩ := (κ.held options).gives_all h hgives
  exact ⟨hcourse, fun v hv => (hvs v hv).1⟩

/-- What an evaluation starts is ready if what came before it is obeyed. -/
theorem Ready.startsAfter {P : Evaluation → Prop} (hP : ∀ e, P e → κ.Obeyed options e)
    {outer inner : Evaluation} (houter : κ.Ready outer)
    (h : outer.StartsAfter options P inner) : κ.Ready inner ∧ κ.Leads outer.state inner.state := by
  have hstarted {depth scope : Nat} {part : Part} {u : State}
      (hpart : P ⟨depth, part, scope, u⟩) (hready : κ.Ready ⟨depth, part, scope, u⟩) :
      (part.eval options (runBody options depth) scope).Follows κ.Leads
        (fun s v => κ.Safe s v ∧ κ.measured v) u :=
    (κ.held options).follows ⟨hready, hP _ hpart⟩
  cases h with
  | part hreaches hbefore =>
      exact (κ.carried options).reaches_of houter
        (fun j part u hj hreaches' => hstarted (hbefore j hj part u hreaches')) hreaches
  | body hopens hbefore =>
      obtain ⟨vs, t, hgives, ha⟩ := hopens
      obtain ⟨hcourse, hvs⟩ := (κ.carried options).gives_of houter
        (fun k part u hreaches => hstarted (hbefore k part u hreaches)) hgives
      have hsafe : ∀ v ∈ vs, κ.Safe t v := fun v hv => (hvs v hv).1
      exact ⟨.body hcourse.tidy hsafe ha,
        course.trans hcourse (leads_activation? hcourse.tidy hsafe ha).1⟩

/-- So is what it starts through others. -/
theorem Ready.startedAfter {P : Evaluation → Prop} (hP : ∀ e, P e → κ.Obeyed options e)
    {outer inner : Evaluation} (houter : κ.Ready outer)
    (h : Relation.ReflTransGen (Evaluation.StartsAfter options P) outer inner) :
    κ.Ready inner ∧ κ.Leads outer.state inner.state := by
  induction h with
  | refl => exact ⟨houter, houter.tidy.stay⟩
  | tail _ hstarts ih =>
      obtain ⟨hinner, hstep⟩ := ih.1.startsAfter hP hstarts
      exact ⟨hinner, course.trans ih.2 hstep⟩

end Conduct

end Scripting
