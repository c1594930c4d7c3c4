import Scripting.Proofs.Run.Children
import Scripting.Proofs.Run.SuperChain

/-!
# Methods that hand a call on

The simplest chain of definitions is one where every definition but the topmost returns what `super`
gives and the topmost calls nothing. Its definitions call `super` exactly once.
-/

namespace Scripting

/-- Whether an expression runs a body. -/
def Expr.Calls : Expr → Prop
  | .call _ _ => True
  | .new _ _ => True
  | _ => False

/-- A body that returns what a method of `super` gives. -/
def superReturn (name : String) : Block :=
  [.ret (.call (.property .super name) [])]

/-- From a class upwards the definitions of a method hand a call on: the topmost calls nothing, and
the others return what `super` gives. -/
structure Class.HandsOn (c : Class) (name : String) : Prop where
  below : ∀ f k, (f, k) ∈ c.definitions name → k.definitionsAbove name ≠ [] →
    f.body = superReturn name
  topmost : ∀ f k, (f, k) ∈ c.definitions name → k.definitionsAbove name = [] →
    Block.Forall (fun e => ¬e.Calls) f.body

theorem Class.HandsOn.of_subset {c k : Class} {name : String} (h : c.HandsOn name)
    (hsubset : k.definitions name ⊆ c.definitions name) : k.HandsOn name where
  below f k' hmem := h.below f k' (hsubset hmem)
  topmost f k' hmem := h.topmost f k' (hsubset hmem)

namespace Part

variable {options : Options} {node : Part} {vs : List Value} {s : State}

theorem activation?_of_not_calls (h : node.Forall fun e => ¬e.Calls) :
    node.activation? options vs s = none := by
  cases node with
  | expr e =>
      rcases h with rfl | h
      · rfl
      cases e with
      | new className args =>
          rw [Expr.Forall] at h
          exact absurd trivial h.1
      | call callee args =>
          rw [Expr.Forall] at h
          exact absurd trivial h.1
      | _ => rfl
  | _ => rfl

end Part

namespace Evaluation

open Scripting.Part

variable {options : Options} {name : String} {o : Object} {c k k' : Class} {depth scope : Nat}
  {node part : Part} {s : State} {e b b' : Evaluation}

theorem Runs.not_of_activation? (h : ∀ vs t, e.node.activation? options vs t = none) :
    ¬e.Runs options b := by
  intro hruns
  cases hruns with
  | intro hopens =>
      obtain ⟨vs, t, -, ha⟩ := hopens
      cases (h vs t).symm.trans ha

/-- A body without calls runs no method. -/
theorem not_invokes_of_forall (h : b.node.Forall fun e => ¬e.Calls)
    (he : Relation.ReflTransGen (Starts options) b e) : ¬e.Invokes options name o k b' := by
  have hall : e.node.Forall fun e => ¬e.Calls := by
    induction he with
    | refl => exact h
    | tail _ hstarts ih =>
        cases hstarts with
        | part hreaches =>
            obtain ⟨vs, hmem⟩ := hreaches.mem_parts
            rcases mem_children_or_property hmem with hchild | ⟨target, -, name, rfl⟩
            · exact forall_of_mem_children ih hchild
            · trivial
        | body hopens =>
            obtain ⟨vs, t, -, ha⟩ := hopens
            cases (activation?_of_not_calls ih).symm.trans ha
  exact fun hinvokes => Runs.not_of_activation? (fun _ _ => activation?_of_not_calls hall)
    hinvokes.runs

/-- A node with a single part, which runs no body, starts the evaluation of that part. -/
theorem Starts.eq_of_single (hparts : ∀ vs, node.parts vs = [part])
    (hquiet : ∀ vs t, node.activation? options vs t = none)
    (h : (⟨depth, node, scope, s⟩ : Evaluation).Starts options e) :
    e = ⟨depth, part, scope, s⟩ := by
  cases h with
  | part hreaches =>
      obtain ⟨earlier, later, vs, hsplit, -, hgives⟩ := hreaches
      rw [hparts] at hsplit
      cases earlier with
      | nil =>
          cases hsplit
          cases hgives
          rfl
      | cons first earlier =>
          cases earlier <;> cases hsplit
  | body hopens =>
      obtain ⟨vs, t, -, ha⟩ := hopens
      cases (hquiet vs t).symm.trans ha

/-- What a call without arguments starts: the value that has the property, the property, and the
body that the call runs. Only the call itself and that body may run the method. -/
theorem invokes_of_started_call {object : Expr} {inner : Evaluation}
    (hobject : (Part.expr object).Forall fun e => ¬e.Calls)
    (hcall : Invokes options name o k
      ⟨depth, .expr (.call (.property object name) []), scope, s⟩ inner)
    (he : Relation.ReflTransGen (Starts options)
      ⟨depth, .expr (.call (.property object name) []), scope, s⟩ e)
    (hinvokes : e.Invokes options name o k' b') :
    (k' = k ∧ b' = inner) ∨ Relation.ReflTransGen (Starts options) inner e := by
  rcases he.cases_head with rfl | ⟨between, hstarts, he⟩
  · obtain ⟨-, hk, hb⟩ := hinvokes.unique hcall
    exact .inl ⟨hk, hb⟩
  refine .inr ?_
  cases hstarts with
  | part hreaches =>
      obtain ⟨vs, hmem⟩ := hreaches.mem_parts
      have hpart (part : Part)
          (hmem : part ∈ (Part.expr (.call (.property object name) [])).parts vs) :
          part.Forall fun e => ¬e.Calls := by
        rcases mem_children_or_property hmem with hchild | ⟨target, -, name, rfl⟩
        · exact List.mem_singleton.mp hchild ▸ hobject
        · trivial
      exact absurd hinvokes (not_invokes_of_forall (hpart _ hmem) he)
  | body hopens => exact hcall.runs.unique (.intro hopens) ▸ he

/-- So it is with a body that returns what a call of `super` gives. -/
theorem invokes_of_started_superReturn {inner : Evaluation}
    (hcall : Invokes options name o k
      ⟨depth, .expr (.call (.property .super name) []), scope, s⟩ inner)
    (he : Relation.ReflTransGen (Starts options) ⟨depth, .block (superReturn name), scope, s⟩ e)
    (hinvokes : e.Invokes options name o k' b') :
    (k' = k ∧ b' = inner) ∨ Relation.ReflTransGen (Starts options) inner e := by
  rcases he.cases_head with rfl | ⟨between, hstarts, he⟩
  · exact absurd hinvokes.runs (Runs.not_of_activation? fun _ _ => rfl)
  obtain rfl := hstarts.eq_of_single (fun _ => rfl) fun _ _ => rfl
  rcases he.cases_head with rfl | ⟨between, hstarts, he⟩
  · exact absurd hinvokes.runs (Runs.not_of_activation? fun _ _ => rfl)
  obtain rfl := hstarts.eq_of_single (fun _ => rfl) fun _ _ => rfl
  have hsuper : (Part.expr .super).Forall fun e => ¬e.Calls := .inr not_false
  exact invokes_of_started_call hsuper hcall he hinvokes

/-- A body that returns what `super` gives comes to the call of `super`. -/
theorem started_superReturn (options : Options) (name : String) (depth scope : Nat) (s : State) :
    Relation.ReflTransGen (Starts options) ⟨depth, .block (superReturn name), scope, s⟩
      ⟨depth, .expr (.call (.property .super name) []), scope, s⟩ :=
  .tail (.single (.part ⟨[], [], [], rfl, rfl, .nil s⟩)) (.part ⟨[], [], [], rfl, rfl, .nil s⟩)

/-- In the scope of a method a call of `super` without arguments is given the superclass and the
nearest definition above the class of the method. -/
theorem gives_superCall (hwalks : options.walksSuperclasses = true)
    (hbinds : s.BindsMethod scope o c) {f : Closure} {rest : List (Closure × Class)}
    (habove : c.definitionsAbove name = (f, k) :: rest) (run : RunBody) :
    ∃ p t, c.superclass? = some p ∧
      Gives options run scope
        ((expr (.call (.property .super name) [])).parts [.cls p, .boundMethod s.nextIdent f o k]) s
        [.cls p, .boundMethod s.nextIdent f o k] t := by
  obtain ⟨⟨p, hp⟩, -, -⟩ := Class.definitionsAbove_eq_cons habove
  have hfound := (Class.definitionsAbove_of_superclass hp).symm.trans habove
  have hsuper : (Expr.super.eval options run scope).runOn s = (some (.cls p), s) :=
    hbinds.runOn_super hp
  exact ⟨p, _, hp, .cons hsuper rfl
    (.cons (runOn_readProperty_cls hwalks hbinds.get?_this hfound) rfl (.nil _))⟩

/-- It runs that definition. -/
theorem exists_invokes_of_superCall (hwalks : options.walksSuperclasses = true)
    (hbinds : s.BindsMethod scope o c) {f : Closure} {rest : List (Closure × Class)}
    (habove : c.definitionsAbove name = (f, k) :: rest) (depth : Nat) :
    ∃ inner, Invokes options name o k
      ⟨depth + 1, .expr (.call (.property .super name) []), scope, s⟩ inner := by
  obtain ⟨p, t, hp, hgives⟩ :=
    gives_superCall hwalks hbinds habove (runBody options (depth + 1))
  obtain ⟨f', k', rest', inner, habove', hinvokes⟩ :=
    exists_invokes_of_super hwalks hbinds hp hgives
  cases habove.symm.trans habove'
  exact ⟨inner, hinvokes⟩

/-- Where the definitions from a class upwards hand a call on and bodies may nest deep enough, each
of them calls `super` exactly once. -/
theorem Invokes.callsSuperOnce {κ : Conduct} (hwalks : options.walksSuperclasses = true)
    (hthis : ¬κ.name "this") (he : κ.Admitted options e)
    (h : e.Invokes options name o c b) (hchain : c.HandsOn name)
    (hdepth : (c.definitionsAbove name).length ≤ b.depth) :
    b.CallsSuperOnce options name o c ∧
      ∀ (e' : Evaluation) k b', Relation.ReflTransGen (Starts options) b e' →
        e'.Invokes options name o k b' → b'.CallsSuperOnce options name o k := by
  -- by induction on the definitions above the class
  generalize habove : c.definitionsAbove name = ds at hdepth
  induction ds generalizing c e b with
  | nil =>
      obtain ⟨f, hf⟩ := h.get?
      have hmem : (f, c) ∈ c.definitions name := Class.definitions_of_get? hf ▸ List.mem_cons_self
      have hquiet : b.node.Forall fun e => ¬e.Calls :=
        h.node_eq hwalks hf ▸ hchain.topmost f c hmem habove
      have hnone (e' : Evaluation) (k : Class) (b' : Evaluation)
          (he' : Relation.ReflTransGen (Starts options) b e') : ¬e'.Invokes options name o k b' :=
        not_invokes_of_forall hquiet he'
      exact ⟨⟨fun hne => absurd habove hne, fun _ => hnone⟩,
        fun e' k b' he' h' => absurd h' (hnone e' k b' he')⟩
  | cons d ds ih =>
      obtain ⟨f', k⟩ := d
      obtain ⟨f, hf⟩ := h.get?
      have hdefinitions := Class.definitions_of_get? hf
      have hne : c.definitionsAbove name ≠ [] := habove ▸ List.cons_ne_nil _ _
      obtain ⟨-, hk, habove'⟩ := Class.definitionsAbove_eq_cons habove
      have hnode : b.node = .block (superReturn name) := by
        rw [h.node_eq hwalks hf, hchain.below f c (hdefinitions ▸ List.mem_cons_self) hne]
      have hbinds := h.bindsMethod hthis hwalks he
      have hbody : κ.Admitted options b := (he.started (.single h.runs.starts)).1
      obtain ⟨depth, node, scope, s⟩ := b
      obtain ⟨depth, rfl⟩ := Nat.exists_eq_succ_of_ne_zero
        (Nat.ne_of_gt (Nat.lt_of_lt_of_le (Nat.succ_pos _) hdepth))
      cases hnode
      -- the call of `super` runs the nearest definition above, and nothing else runs the method
      obtain ⟨inner, hinvokes⟩ := exists_invokes_of_superCall hwalks hbinds habove depth
      have hstarted := started_superReturn options name (depth + 1) scope s
      have hdepth' : ds.length ≤ inner.depth :=
        Nat.le_of_succ_le_succ (Nat.le_trans hdepth (Nat.le_of_eq hinvokes.runs.depth_eq))
      obtain ⟨hnext, hothers⟩ := ih (hbody.started hstarted).1 hinvokes
        (hchain.of_subset (hk ▸ Class.definitionsAbove_subset c name)) habove' hdepth'
      refine ⟨⟨fun _ => ⟨inner, ⟨_, hstarted, rfl, ⟨[], rfl⟩, hinvokes.runs⟩,
        fun e' k' b' he' h' =>
          (invokes_of_started_superReturn hinvokes he' h').imp_left And.right⟩,
        fun hnil => absurd hnil hne⟩, fun e' k' b' he' h' => ?_⟩
      rcases invokes_of_started_superReturn hinvokes he' h' with ⟨rfl, rfl⟩ | hinner
      · exact hnext
      · exact hothers e' k' b' hinner h'

end Evaluation

end Scripting
