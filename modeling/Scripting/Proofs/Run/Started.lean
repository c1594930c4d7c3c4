import Scripting.Proofs.Run.Course
import Scripting.Proofs.Run.Starts

/-!
# What holds of all evaluations that are started

An evaluation passes through a state because a part that it comes to does, or because its last step
does (`Part.exists_of_passes_eval`). So a law that the last steps keep, given that the bodies they
run keep it, is kept by every evaluation: `Evaluation.Held.follows` is the induction along the
evaluations that one starts. Unlike an induction along the tree it covers the bodies as well, and it
knows of each value which evaluation gave it.
-/

namespace Scripting

open Eval

namespace Part

variable {options : Options} {run : RunBody} {scope : Nat} {node part : Part} {s t u w : State}
  {vs : List Value}

/-- Parts whose values were gathered have given them. -/
theorem gives_of_runOn_evalAll {parts : List Part}
    (h : (evalAll options run scope parts).runOn s = (some (.ok vs), t)) :
    Gives options run scope parts s vs t := by
  induction parts generalizing s vs with
  | nil =>
      cases h
      exact .nil t
  | cons part rest ih =>
      obtain ⟨r, u, hpart⟩ : ∃ r u, (part.eval options run scope).runOn s = (r, u) := ⟨_, _, rfl⟩
      rw [evalAll, runOn_bind, hpart] at h
      cases r with
      | none => cases h
      | some v =>
          dsimp only at h
          split at h
          · cases h
          · next hv =>
              rw [runOn_bind] at h
              obtain ⟨r, u', hrest⟩ :
                  ∃ r u', (evalAll options run scope rest).runOn u = (r, u') := ⟨_, _, rfl⟩
              rw [hrest] at h
              cases r with
              | none => cases h
              | some r =>
                  cases r with
                  | error signal => cases h
                  | ok ws =>
                      cases h
                      exact .cons hpart (Bool.eq_false_iff.mpr hv) (ih hrest)

/-- The evaluation of a node passes through the states that a part it comes to passes through, and
behind its parts through those of its last step. -/
theorem exists_of_passes_eval (h : (node.eval options run scope).Passes s w) :
    (∃ k part t, node.Reaches options run scope s k part t ∧
      (part.eval options run scope).Passes t w) ∨
      ∃ vs t, Gives options run scope (node.parts vs) s vs t ∧
        (node.finish options run scope vs).Passes t w := by
  rw [eval_eq, evalInOrder] at h
  cases hparts : node.parts [] with
  | nil =>
      rw [hparts] at h
      exact .inr ⟨[], s, hparts ▸ .nil s, h⟩
  | cons first rest =>
      rw [hparts] at h
      have hfirst (hw : (first.eval options run scope).Passes s w) :
          ∃ k part t, node.Reaches options run scope s k part t ∧
            (part.eval options run scope).Passes t w :=
        ⟨0, first, s, ⟨[], rest, [], hparts, rfl, .nil s⟩, hw⟩
      rcases h with h | ⟨v, u, hvalue, h⟩
      · exact .inl (hfirst h)
      have hend : (first.eval options run scope).Passes s u := passes_of_runOn hvalue
      dsimp only at h
      split at h
      · cases h
        exact .inl (hfirst hend)
      next hv =>
      obtain ⟨others, hothers⟩ := exists_parts_eq_cons hparts v
      rw [hothers, List.tail_cons] at h
      have hlater (hw : (evalAll options run scope others).Passes u w) :
          ∃ k part t, node.Reaches options run scope s k part t ∧
            (part.eval options run scope).Passes t w := by
        rcases exists_gives_of_passes_evalAll hw with rfl |
          ⟨earlier, part, later, vs, t, rfl, hgives, hw⟩
        · exact hfirst hend
        · refine ⟨earlier.length + 1, part, t, ⟨first :: earlier, later, v :: vs, ?_, rfl, ?_⟩, hw⟩
          · rw [parts_cons, hothers, List.cons_append]
          · exact .cons hvalue (Bool.eq_false_iff.mpr hv) hgives
      rcases h with h | ⟨r, t, hr, h⟩
      · exact .inl (hlater h)
      · cases r with
        | error signal =>
            cases h
            exact .inl (hlater (passes_of_runOn hr))
        | ok vs =>
            refine .inr ⟨v :: vs, t, ?_, h⟩
            rw [parts_cons, hothers]
            exact .cons hvalue (Bool.eq_false_iff.mpr hv) (gives_of_runOn_evalAll hr)

/-- The first values of a node decide which part comes next. -/
theorem parts_of_append {earlier later : List Part} {vs ws : List Value}
    (h : node.parts (vs ++ ws) = earlier ++ part :: later) (hlength : vs.length = earlier.length) :
    ∃ later', node.parts vs = earlier ++ part :: later' := by
  cases vs with
  | nil =>
      obtain rfl := List.length_eq_zero_iff.mp hlength.symm
      have hhead : (node.parts []).head? = some part := by
        rw [← head?_parts_eq node ([] ++ ws), h, List.nil_append, List.head?_cons]
      exact List.head?_eq_some_iff.mp hhead
  | cons v vs =>
      rw [List.cons_append, parts_cons] at h
      exact ⟨later, (parts_cons node v vs).trans h⟩

theorem Gives.append {earlier later : List Part} {ws : List Value}
    (h : Gives options run scope earlier s vs t) (h' : Gives options run scope later t ws u) :
    Gives options run scope (earlier ++ later) s (vs ++ ws) u := by
  induction h with
  | nil => exact h'
  | cons hvalue hv _ ih => exact .cons hvalue hv (ih h')

end Part

namespace Evaluation

open Scripting.Part

variable {options : Options} {A : Evaluation → Prop} {R : State → State → Prop}
  {Q : State → Value → Prop}

/-- All evaluations that one starts, itself included, give only values with `M`. -/
def GivesOnly (options : Options) (M : Value → Prop) (e : Evaluation) : Prop :=
  ∀ inner, Relation.ReflTransGen (Starts options) e inner → ∀ v t,
    (inner.node.eval options (runBody options inner.depth) inner.scope).runOn inner.state =
      (some v, t) → M v

theorem GivesOnly.starts {M : Value → Prop} {outer inner : Evaluation}
    (h : outer.GivesOnly options M) (hstarts : outer.Starts options inner) :
    inner.GivesOnly options M :=
  fun e he => h e (he.head hstarts)

/-- The evaluation assigns to a property of an object, once its parts have given their values. -/
def Assigns (options : Options) (e : Evaluation) (o : Object) (name : String) : Prop :=
  ∃ object value v t, e.node = .expr (.assign (.property object name) value) ∧
    Gives options (runBody options e.depth) e.scope (e.node.parts [v, .object o]) e.state
      [v, .object o] t

/-- All evaluations that one starts, itself included, assign only to properties with `F`. -/
def AssignsOnly (options : Options) (F : Object → String → Prop) (e : Evaluation) : Prop :=
  ∀ inner, Relation.ReflTransGen (Starts options) e inner →
    ∀ o name, inner.Assigns options o name → F o name

theorem AssignsOnly.starts {F : Object → String → Prop} {outer inner : Evaluation}
    (h : outer.AssignsOnly options F) (hstarts : outer.Starts options inner) :
    inner.AssignsOnly options F :=
  fun e he => h e (he.head hstarts)

/-- What is carried along the parts of a node: which evaluations are admitted (`A`), where they lead
(`R`) and what they give (`Q`). A part is admitted behind parts that keep to it. -/
structure Carried (options : Options) (A : Evaluation → Prop) (R : State → State → Prop)
    (Q : State → Value → Prop) : Prop where
  course : Course R
  start : ∀ {e}, A e → R e.state e.state
  value : ∀ {s t v}, R s t → Q s v → Q t v
  part : ∀ {depth scope node part s t vs}, A ⟨depth, node, scope, s⟩ →
    Starts options ⟨depth, node, scope, s⟩ ⟨depth, part, scope, t⟩ → R s t → (∀ v ∈ vs, Q t v) →
      part ∈ node.parts vs → A ⟨depth, part, scope, t⟩

/-- What evaluations are held to: it is carried along parts, a body is admitted behind all parts of
the node that runs it, and the last step of a node keeps to it where the body that it runs does. -/
structure Held (options : Options) (A : Evaluation → Prop) (R : State → State → Prop)
    (Q : State → Value → Prop) : Prop extends Carried options A R Q where
  enter : ∀ {depth scope node s t vs a}, A ⟨depth, node, scope, s⟩ →
    Gives options (runBody options depth) scope (node.parts vs) s vs t → R s t →
      (∀ v ∈ vs, Q t v) → node.activation? options vs t = some a → R t a.state
  body : ∀ {depth scope node s t vs a}, A ⟨depth + 1, node, scope, s⟩ →
    Gives options (runBody options (depth + 1)) scope (node.parts vs) s vs t → R s t →
      (∀ v ∈ vs, Q t v) → node.activation? options vs t = some a →
        A ⟨depth, .block a.body, a.scope, a.state⟩
  finish : ∀ {depth scope node s t vs}, A ⟨depth, node, scope, s⟩ →
    Gives options (runBody options depth) scope (node.parts vs) s vs t → R s t →
      (∀ v ∈ vs, Q t v) →
        (∀ a, node.activation? options vs t = some a →
          (runBody options depth a.body a.scope).Follows R Q a.state) →
          (node.finish options (runBody options depth) scope vs).Follows R Q t

variable {depth scope : Nat} {node : Part} {s t : State} {vs : List Value}

namespace Carried

/-- Parts that are evaluated in order keep to it, if those that are admitted do: the parts before
the `n`-th. -/
theorem gives (h : Carried options A R Q) (hnode : A ⟨depth, node, scope, s⟩) {n : Nat}
    (hstarted : ∀ k part u, k < n →
      node.Reaches options (runBody options depth) scope s k part u → A ⟨depth, part, scope, u⟩ →
        (part.eval options (runBody options depth) scope).Follows R Q u)
    {rest : List Part} {u : State} {ws : List Value}
    (hrest : Gives options (runBody options depth) scope rest t ws u) :
    ∀ (earlier later : List Part) (vs : List Value),
      node.parts (vs ++ ws) = earlier ++ (rest ++ later) → earlier.length + rest.length ≤ n →
      Gives options (runBody options depth) scope earlier s vs t → R s t → (∀ v ∈ vs, Q t v) →
        R s u ∧ ∀ v ∈ vs ++ ws, Q u v := by
  induction hrest with
  | nil =>
      intro _ _ vs _ _ _ hcourse hvs
      rw [List.append_nil]
      exact ⟨hcourse, hvs⟩
  | @cons part rest t t' u v ws hvalue hv hrest ih =>
      intro earlier later vs hparts hn hearlier hcourse hvs
      rw [List.cons_append] at hparts
      obtain ⟨later', hnext⟩ := parts_of_append hparts hearlier.length_eq
      have hreaches : node.Reaches options (runBody options depth) scope s earlier.length part t :=
        ⟨earlier, later', vs, hnext, rfl, hearlier⟩
      have hpart : part ∈ node.parts vs :=
        hnext ▸ List.mem_append_right _ List.mem_cons_self
      have hadmitted : A ⟨depth, part, scope, t⟩ :=
        h.part hnode (.part hreaches) hcourse hvs hpart
      have hlt : earlier.length < n :=
        Nat.lt_of_lt_of_le (Nat.lt_add_of_pos_right (Nat.succ_pos _)) hn
      obtain ⟨hstep, hgiven⟩ := (hstarted _ part t hlt hreaches hadmitted).result hvalue
      have hvs' : ∀ w ∈ vs ++ [v], Q t' w := List.forall_mem_append.mpr
        ⟨fun w hw => h.value hstep (hvs w hw), List.forall_mem_singleton.mpr hgiven⟩
      have hmore : node.parts ((vs ++ [v]) ++ ws) = (earlier ++ [part]) ++ (rest ++ later) := by
        rw [List.append_assoc, List.append_assoc]
        exact hparts
      have hlength : (earlier ++ [part]).length + rest.length ≤ n := by
        rw [List.length_append, List.length_singleton, Nat.add_assoc, Nat.add_comm 1]
        exact hn
      have hall := ih _ later _ hmore hlength (hearlier.append (.cons hvalue hv (.nil t')))
        (h.course.trans hcourse hstep) hvs'
      rwa [List.append_assoc] at hall

/-- A part that a node comes to is admitted, if the parts before it keep to it. -/
theorem reaches_of (h : Carried options A R Q) (hnode : A ⟨depth, node, scope, s⟩) {k : Nat}
    (hstarted : ∀ j part u, j < k →
      node.Reaches options (runBody options depth) scope s j part u → A ⟨depth, part, scope, u⟩ →
        (part.eval options (runBody options depth) scope).Follows R Q u)
    {part : Part} (hreaches : node.Reaches options (runBody options depth) scope s k part t) :
    A ⟨depth, part, scope, t⟩ ∧ R s t := by
  have hstarts := Starts.part hreaches
  obtain ⟨earlier, later, vs, hsplit, rfl, hgives⟩ := hreaches
  obtain ⟨hcourse, hvs⟩ := h.gives hnode hstarted hgives [] (part :: later) [] hsplit
    (Nat.le_of_eq (Nat.zero_add _)) (.nil s) (h.start hnode) fun _ hv => nomatch hv
  have hpart : part ∈ node.parts vs := hsplit ▸ List.mem_append_right _ List.mem_cons_self
  exact ⟨h.part hnode hstarts hcourse hvs hpart, hcourse⟩

/-- The values of all parts of a node are as they should be, if the parts keep to it. -/
theorem gives_of (h : Carried options A R Q) (hnode : A ⟨depth, node, scope, s⟩)
    (hstarted : ∀ k part u, node.Reaches options (runBody options depth) scope s k part u →
      A ⟨depth, part, scope, u⟩ → (part.eval options (runBody options depth) scope).Follows R Q u)
    (hgives : Gives options (runBody options depth) scope (node.parts vs) s vs t) :
    R s t ∧ ∀ v ∈ vs, Q t v :=
  h.gives hnode (fun k part u _ => hstarted k part u) hgives [] [] [] (List.append_nil _).symm
    (Nat.le_of_eq (Nat.zero_add _)) (.nil s) (h.start hnode) fun _ hv => nomatch hv

end Carried

namespace Held

/-- Every admitted evaluation keeps to it. -/
theorem follows (h : Held options A R Q) {e : Evaluation} (he : A e) :
    (e.node.eval options (runBody options e.depth) e.scope).Follows R Q e.state := by
  induction e using (wellFounded_starts options).induction with
  | _ e ih =>
      obtain ⟨depth, node, scope, s⟩ := e
      have hstarted (k : Nat) (part : Part) (u : State)
          (hreaches : node.Reaches options (runBody options depth) scope s k part u)
          (hadmitted : A ⟨depth, part, scope, u⟩) :
          (part.eval options (runBody options depth) scope).Follows R Q u :=
        ih _ (.part hreaches) hadmitted
      have hreached {k : Nat} {part : Part} {t : State}
          (hreaches : node.Reaches options (runBody options depth) scope s k part t) :
          R s t ∧ (part.eval options (runBody options depth) scope).Follows R Q t := by
        obtain ⟨hadmitted, hcourse⟩ :=
          h.reaches_of he (fun j part u _ => hstarted j part u) hreaches
        exact ⟨hcourse, hstarted k part t hreaches hadmitted⟩
      have hlast {vs : List Value} {t : State}
          (hgives : Gives options (runBody options depth) scope (node.parts vs) s vs t) :
          R s t ∧ (node.finish options (runBody options depth) scope vs).Follows R Q t := by
        obtain ⟨hcourse, hvs⟩ := h.gives_of he hstarted hgives
        refine ⟨hcourse, h.finish he hgives hcourse hvs fun a ha => ?_⟩
        have henter : R a.state a.state := h.course.stay (h.enter he hgives hcourse hvs ha)
        cases depth with
        | zero => exact Follows.tooDeep henter
        | succ depth => exact ih _ (.body ⟨vs, t, hgives, ha⟩) (h.body he hgives hcourse hvs ha)
      constructor
      · intro w hw
        rcases exists_of_passes_eval hw with ⟨k, part, t, hreaches, hw⟩ | ⟨vs, t, hgives, hw⟩
        · obtain ⟨hcourse, hpart⟩ := hreached hreaches
          exact h.course.trans hcourse (hpart.passes hw)
        · obtain ⟨hcourse, hfinish⟩ := hlast hgives
          exact h.course.trans hcourse (hfinish.passes hw)
      · intro v u hv
        rcases gives_or_reaches node s with ⟨vs, t, hgives⟩ | ⟨k, part, t, hreaches, hstops⟩
        · rw [hgives.runOn_eval] at hv
          exact ((hlast hgives).2.result hv).2
        · rw [hreaches.runOn_eval_of_stops hstops] at hv
          exact ((hreached hreaches).2.result hv).2

theorem gives_all (h : Held options A R Q) (hnode : A ⟨depth, node, scope, s⟩)
    (hgives : Gives options (runBody options depth) scope (node.parts vs) s vs t) :
    R s t ∧ ∀ v ∈ vs, Q t v :=
  h.gives_of hnode (fun _ _ _ _ hadmitted => h.follows hadmitted) hgives

/-- What an admitted evaluation starts is admitted, and the evaluation leads there. -/
theorem starts (h : Held options A R Q) {outer inner : Evaluation} (houter : A outer)
    (hstarts : outer.Starts options inner) : A inner ∧ R outer.state inner.state := by
  cases hstarts with
  | part hreaches =>
      exact h.reaches_of houter (fun _ _ _ _ _ hadmitted => h.follows hadmitted) hreaches
  | body hopens =>
      obtain ⟨vs, t, hgives, ha⟩ := hopens
      obtain ⟨hcourse, hvs⟩ := h.gives_all houter hgives
      exact ⟨h.body houter hgives hcourse hvs ha,
        h.course.trans hcourse (h.enter houter hgives hcourse hvs ha)⟩

/-- So is all that is started in turn. -/
theorem started (h : Held options A R Q) {outer inner : Evaluation} (houter : A outer)
    (hstarted : Relation.ReflTransGen (Starts options) outer inner) :
    A inner ∧ R outer.state inner.state := by
  induction hstarted with
  | refl => exact ⟨houter, h.start houter⟩
  | tail _ hstarts ih =>
      obtain ⟨hbetween, hcourse⟩ := ih
      obtain ⟨hinner, hstep⟩ := h.starts hbetween hstarts
      exact ⟨hinner, h.course.trans hcourse hstep⟩

end Held

end Evaluation

end Scripting
