import Scripting.Proofs.Run.SuperCall

/-!
# Methods that call each other along a chain of classes

A method that calls `super` in its own scope runs the nearest definition above its class. If each
definition of a method does that once, and in no other way runs the method for the same object, then
a call runs every definition once, from the class it was found on upwards: `exists_climb` is the
induction along the definitions that stand above a class.
-/

namespace Scripting

namespace Evaluation

open Scripting.Part

/-- In its own scope a body calls a method of `super`, and the call runs the body `inner`. -/
def CallsSuper (options : Options) (name : String) (b inner : Evaluation) : Prop :=
  ∃ call : Evaluation, Relation.ReflTransGen (Starts options) b call ∧ call.scope = b.scope ∧
    (∃ args, call.node = .expr (.call (.property .super name) args)) ∧ call.Runs options inner

/-- The body, which runs the definition of a class for an object, calls `super` exactly once if
there are definitions above that class, and otherwise not at all. In no other way does it run the
method for the object. -/
structure CallsSuperOnce (options : Options) (name : String) (o : Object) (c : Class)
    (b : Evaluation) : Prop where
  below : c.definitionsAbove name ≠ [] → ∃ inner, b.CallsSuper options name inner ∧
    ∀ (e : Evaluation) k b', Relation.ReflTransGen (Starts options) b e → e.Invokes options name o k b' →
      b' = inner ∨ Relation.ReflTransGen (Starts options) inner e
  topmost : c.definitionsAbove name = [] →
    ∀ (e : Evaluation) k b', Relation.ReflTransGen (Starts options) b e → ¬e.Invokes options name o k b'

/-- The body is the run of a definition for an object: in its scope `this` is the object, and `super`
is the superclass of the class that has the definition. -/
structure RunsDefinition (options : Options) (name : String) (o : Object) (d : Closure × Class)
    (b : Evaluation) : Prop where
  node_eq : b.node = .block d.1.body
  binds : b.state.BindsMethod b.scope o d.2
  invoked : ∃ e : Evaluation, e.Invokes options name o d.2 b

/-- The bodies are the runs of some definitions for an object, one body for each definition: each
runs in a scope of its own and calls the next one through `super`. -/
structure RunsEach (options : Options) (name : String) (o : Object)
    (definitions : List (Closure × Class)) (bodies : List Evaluation) : Prop where
  each : List.Forall₂ (RunsDefinition options name o) definitions bodies
  linked : bodies.IsChain (CallsSuper options name)
  ordered : bodies.Pairwise fun outer inner => outer.scope < inner.scope

variable {κ : Conduct} {options : Options} {name : String} {o : Object} {c k : Class}
  {e b b' inner : Evaluation} {ds : List (Closure × Class)}

theorem Invokes.get? (h : e.Invokes options name o c b) :
    ∃ f, c.own.methods.get? name = some f := by
  cases h with
  | intro _ _ hmethod _ => exact ⟨_, hmethod⟩

theorem RunsEach.singleton {d : Closure × Class} (h : b.RunsDefinition options name o d) :
    RunsEach options name o [d] [b] :=
  ⟨.cons h .nil, List.isChain_singleton b, List.pairwise_singleton _ b⟩

theorem RunsEach.cons {d : Closure × Class} {bodies : List Evaluation}
    (h : b.RunsDefinition options name o d) (hcalls : b.CallsSuper options name inner)
    (hlt : b.scope < inner.scope) (hrest : RunsEach options name o ds (inner :: bodies)) :
    RunsEach options name o (d :: ds) (b :: inner :: bodies) where
  each := .cons h hrest.each
  linked := List.isChain_cons_cons.mpr ⟨hcalls, hrest.linked⟩
  ordered := by
    refine List.pairwise_cons.mpr ⟨fun b' hb' => ?_, hrest.ordered⟩
    rcases List.mem_cons.mp hb' with rfl | hb'
    · exact hlt
    · exact Nat.lt_trans hlt (List.rel_of_pairwise_cons hrest.ordered hb')

section

variable (hwalks : options.walksSuperclasses = true) (hthis : ¬κ.name "this")
  (hsuper : ¬κ.name "super") (he : κ.Admitted options e) (h : e.Invokes options name o c b)

include hwalks hthis hsuper he h

/-- The body that a method calls through `super` runs the nearest definition above the class of the
method, for the same object. -/
theorem Invokes.callsSuper {f : Closure} {rest : List (Closure × Class)}
    (habove : c.definitionsAbove name = (f, k) :: rest)
    (hcalls : b.CallsSuper options name inner) :
    ∃ call, Relation.ReflTransGen (Starts options) b call ∧ b.scope < inner.scope ∧
      call.Invokes options name o k inner := by
  obtain ⟨call, hstarted, hscope, ⟨args, hnode⟩, hruns⟩ := hcalls
  have hbody : κ.Admitted options b := (he.started (.single h.runs.starts)).1
  obtain ⟨hcall, hleads⟩ := hbody.started hstarted
  have hbinds := (h.bindsMethod hthis hwalks he).retains hleads.retains hthis hsuper
  obtain ⟨⟨p, hp⟩, -⟩ := Class.definitionsAbove_eq_cons habove
  cases hruns with
  | intro hopens =>
      obtain ⟨vs, t, hgives, ha⟩ := hopens
      cases hnode
      cases hscope
      obtain ⟨f', k', rest', b', habove', hinvokes⟩ :=
        exists_invokes_of_super hwalks hbinds hp hgives
      cases habove.symm.trans habove'
      cases hinvokes.runs.unique (.intro ⟨vs, t, hgives, ha⟩)
      exact ⟨_, hstarted, Nat.lt_of_lt_of_le hbinds.lt (hinvokes.size_le hwalks hcall), hinvokes⟩

/-- Where each definition calls `super` once, a call runs every definition once, from the class it
was found on upwards. -/
theorem Invokes.exists_climb
    (honce : ∀ (e' : Evaluation) k b', Relation.ReflTransGen (Starts options) e e' →
      e'.Invokes options name o k b' → (∃ f, (f, k) ∈ c.definitions name) →
        b'.CallsSuperOnce options name o k) :
    ∃ bodies, RunsEach options name o (c.definitions name) (b :: bodies) ∧
      ∀ (e' : Evaluation) k b', Relation.ReflTransGen (Starts options) b e' →
        e'.Invokes options name o k b' → b' ∈ bodies := by
  -- by induction on the definitions above the class
  generalize habove : c.definitionsAbove name = ds
  induction ds generalizing c e b with
  | nil =>
      obtain ⟨f, hf⟩ := h.get?
      have hdefinitions : c.definitions name = [(f, c)] :=
        (Class.definitions_of_get? hf).trans (by rw [habove])
      have hbody := honce e c b .refl h ⟨f, hdefinitions ▸ List.mem_cons_self⟩
      refine ⟨[], hdefinitions ▸ .singleton ?_,
        fun e' k b' he' h' => absurd h' (hbody.topmost habove e' k b' he')⟩
      exact ⟨h.node_eq hwalks hf, h.bindsMethod hthis hwalks he, e, h⟩
  | cons d ds ih =>
      obtain ⟨f', k⟩ := d
      obtain ⟨f, hf⟩ := h.get?
      have hdefinitions := Class.definitions_of_get? hf
      have hbody := honce e c b .refl h ⟨f, hdefinitions ▸ List.mem_cons_self⟩
      obtain ⟨inner, hcalls, honly⟩ := hbody.below (habove ▸ List.cons_ne_nil _ _)
      obtain ⟨call, hstarted, hlt, hinvokes⟩ :=
        h.callsSuper hwalks hthis hsuper he habove hcalls
      have hcall : Relation.ReflTransGen (Starts options) e call := hstarted.head h.runs.starts
      -- the definitions of the next class are those above this one
      obtain ⟨-, hk, habove'⟩ := Class.definitionsAbove_eq_cons habove
      obtain ⟨bodies, hruns, hall⟩ := ih (he.started hcall).1 hinvokes
        (fun e' k' b' he' h' hmem => honce e' k' b' (hcall.trans he') h'
          (hmem.imp fun _ hd => Class.definitionsAbove_subset c name (hk ▸ hd))) habove'
      rw [hk] at hruns
      refine ⟨inner :: bodies, hdefinitions ▸ .cons ?_ hcalls hlt hruns, fun e' k' b' he' h' => ?_⟩
      · exact ⟨h.node_eq hwalks hf, h.bindsMethod hthis hwalks he, e, h⟩
      · rcases honly e' k' b' he' h' with rfl | hinner
        · exact List.mem_cons_self
        · exact List.mem_cons_of_mem _ (hall e' k' b' hinner h')

end

end Evaluation

end Scripting
