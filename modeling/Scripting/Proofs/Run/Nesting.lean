import Scripting.Proofs.Run.Activation
import Scripting.Proofs.Run.Nodes
import Scripting.Proofs.Run.Outcome

/-!
# How deep bodies nest

An evaluation gives up for one reason: bodies nest deeper than the limit. `Part.Nests` says that
they do, by following the bodies that are open inside one another. Under a higher limit an
evaluation that does not give up gives the same, so every evaluation either settles or nests bodies
beyond every limit.
-/

namespace Scripting

open Eval

/-- A body that has a result in one way of running bodies has the same in the other. -/
def RunBody.Le (run run' : RunBody) : Prop :=
  ∀ (a : Activation) (v : Value) (t : State), a.result run = (some v, t) →
    a.result run' = (some v, t)

namespace Part

section

variable (options : Options) (run : RunBody) (scope : Nat)

/-- Evaluated on `s`, a node runs a body itself: its parts give ordinary values and its last step
runs the body. -/
def Opens (node : Part) (s : State) (a : Activation) : Prop :=
  ∃ vs t, Gives options run scope (node.parts vs) s vs t ∧ node.activation? options vs t = some a

/-- Evaluated on `s`, a node comes to a body, its own or that of a node inside it. -/
def ComesTo (node : Part) (s : State) (a : Activation) : Prop :=
  ∃ inner t, node.Encloses options run scope s inner t ∧ inner.Opens options run scope t a

end

/-- Evaluated on a state, a node opens more than `depth` bodies inside one another. -/
def Nests (options : Options) : (depth : Nat) → Part → (scope : Nat) → State → Prop
  | 0, node, scope, s => ∃ a, node.ComesTo options (runBody options 0) scope s a
  | depth + 1, node, scope, s =>
      ∃ a, node.ComesTo options (runBody options (depth + 1)) scope s a ∧
        Nests options depth (block a.body) a.scope a.state

variable {options : Options} {run run' : RunBody} {scope : Nat} {node part : Part} {s t u : State}
  {k : Nat} {vs : List Value} {v : Value} {a : Activation}

/-! ### Giving up -/

theorem Reaches.mem_parts (h : node.Reaches options run scope s k part t) :
    ∃ vs, part ∈ node.parts vs := by
  obtain ⟨earlier, later, vs, hparts, -⟩ := h
  exact ⟨vs, hparts ▸ List.mem_append_right _ List.mem_cons_self⟩

theorem Reaches.comesTo (h : node.Reaches options run scope s k part t)
    (ha : part.ComesTo options run scope t a) : node.ComesTo options run scope s a := by
  obtain ⟨inner, u, hencloses, hopens⟩ := ha
  exact ⟨inner, u, hencloses.head ⟨k, h⟩, hopens⟩

theorem Opens.comesTo (h : node.Opens options run scope s a) :
    node.ComesTo options run scope s a :=
  ⟨node, s, .refl, h⟩

/-- A node that runs a body makes its value out of what the body gives. -/
theorem Opens.exists_conclude (h : node.Opens options run scope s a) :
    ∃ conclude : Value → Value, (node.eval options run scope).runOn s =
      ((a.result run).1.map conclude, (a.result run).2) := by
  obtain ⟨vs, t, hgives, hactivation⟩ := h
  obtain ⟨conclude, hfinish⟩ := runOn_finish_of_activation hactivation
  exact ⟨conclude, hgives.runOn_eval.trans (hfinish run)⟩

/-- What a node does once its parts have given their values: it runs a body, or it gives a value
whatever runs the bodies. -/
theorem Gives.opens_or_steady (h : Gives options run scope (node.parts vs) s vs t) :
    (∃ a, node.Opens options run scope s a) ∨
      Steady (fun run => node.finish options run scope vs) t := by
  cases hactivation : node.activation? options vs t with
  | none => exact .inr (runOn_finish_of_no_activation h.length_eq hactivation)
  | some a => exact .inl ⟨a, vs, t, h, hactivation⟩

theorem Encloses.runOn_eval_of_none {outer : Part} {r : State}
    (h : outer.Encloses options run scope r part t)
    (hnone : (part.eval options run scope).runOn t = (none, u)) :
    (outer.eval options run scope).runOn r = (none, u) := by
  have hall (a : Part × State)
      (ha : Relation.ReflTransGen
        (fun a b : Part × State => ∃ k, a.1.Reaches options run scope a.2 k b.1 b.2) a (part, t)) :
      (a.1.eval options run scope).runOn a.2 = (none, u) := by
    induction ha using Relation.ReflTransGen.head_induction_on with
    | refl => exact hnone
    | head hstep _ ih =>
        obtain ⟨k, hreaches⟩ := hstep
        exact hreaches.runOn_eval_of_none ih
  exact hall _ h

theorem ComesTo.runOn_eval_of_none (h : node.ComesTo options run scope s a)
    (hnone : a.result run = (none, u)) : (node.eval options run scope).runOn s = (none, u) := by
  obtain ⟨inner, t, hencloses, hopens⟩ := h
  obtain ⟨conclude, hinner⟩ := hopens.exists_conclude
  refine hencloses.runOn_eval_of_none ?_
  rw [hinner, hnone]
  rfl

/-- An evaluation gives up where it comes to a body that does, and nowhere else. -/
theorem runOn_eval_eq_none_iff (node : Part) (s u : State) :
    (node.eval options run scope).runOn s = (none, u) ↔
      ∃ a, node.ComesTo options run scope s a ∧ a.result run = (none, u) := by
  refine ⟨fun h => ?_, fun ⟨a, ha, hnone⟩ => ha.runOn_eval_of_none hnone⟩
  -- The parts of a node have fewer nodes.
  induction hsize : node.nodes.length using Nat.strongRecOn generalizing node s with
  | ind n ih =>
      subst hsize
      rcases gives_or_reaches node s with ⟨vs, t, hgives⟩ | ⟨k, part, t, hreaches, hstops⟩
      · rcases hgives.opens_or_steady with ⟨a, hopens⟩ | ⟨v, w, hsteady⟩
        · obtain ⟨conclude, heval⟩ := hopens.exists_conclude
          rw [h] at heval
          obtain ⟨hnone, hstate⟩ := Prod.mk.inj heval
          refine ⟨a, hopens.comesTo, Prod.ext ?_ hstate.symm⟩
          exact Option.map_eq_none_iff.mp hnone.symm
        · rw [hgives.runOn_eval, hsteady run] at h
          cases h
      · obtain ⟨vs, hmem⟩ := hreaches.mem_parts
        rw [hreaches.runOn_eval_of_stops hstops] at h
        obtain ⟨a, ha, hnone⟩ := ih _ (length_nodes_lt hmem) part t h rfl
        exact ⟨a, hreaches.comesTo ha, hnone⟩

theorem exists_comesTo_iff (node : Part) (s : State) :
    ((node.eval options run scope).runOn s).1 = none ↔
      ∃ a, node.ComesTo options run scope s a ∧ (a.result run).1 = none := by
  constructor
  · intro h
    obtain ⟨a, ha, hnone⟩ := (runOn_eval_eq_none_iff node s _).mp (Prod.ext h rfl)
    exact ⟨a, ha, congrArg Prod.fst hnone⟩
  · rintro ⟨a, ha, hnone⟩
    exact congrArg Prod.fst (ha.runOn_eval_of_none (Prod.ext hnone rfl))

/-- An evaluation gives up under a limit exactly if it nests more bodies than that. -/
theorem eval_eq_none_iff_nests (depth : Nat) (node : Part) (scope : Nat) (s : State) :
    ((node.eval options (runBody options depth) scope).runOn s).1 = none ↔
      node.Nests options depth scope s := by
  induction depth generalizing node scope s with
  | zero =>
      -- Under the limit zero every body gives up at once.
      rw [exists_comesTo_iff]
      exact exists_congr fun a => and_iff_left rfl
  | succ depth ih =>
      rw [exists_comesTo_iff]
      exact exists_congr fun a => and_congr_right fun _ => ih (block a.body) a.scope a.state

/-! ### Higher limits -/

theorem Gives.mono {parts : List Part} (h : Gives options run scope parts s vs t)
    (hparts : ∀ part ∈ parts, ∀ s v t, (part.eval options run scope).runOn s = (some v, t) →
      (part.eval options run' scope).runOn s = (some v, t)) :
    Gives options run' scope parts s vs t := by
  induction h with
  | nil s => exact .nil s
  | cons hvalue hv _ ih =>
      refine .cons (hparts _ List.mem_cons_self _ _ _ hvalue) hv ?_
      exact ih fun part hpart => hparts part (List.mem_cons_of_mem _ hpart)

theorem Reaches.mono (h : node.Reaches options run scope s k part t)
    (hparts : ∀ vs, ∀ part ∈ node.parts vs, ∀ s v t,
      (part.eval options run scope).runOn s = (some v, t) →
        (part.eval options run' scope).runOn s = (some v, t)) :
    node.Reaches options run' scope s k part t := by
  obtain ⟨earlier, later, vs, hsplit, hk, hgives⟩ := h
  refine ⟨earlier, later, vs, hsplit, hk, hgives.mono fun part hpart => hparts vs part ?_⟩
  exact hsplit ▸ List.mem_append_left _ hpart

/-- An evaluation with a result has the same where bodies have. -/
theorem eval_mono (hle : RunBody.Le run run') (node : Part) (s : State) (v : Value) (t : State)
    (h : (node.eval options run scope).runOn s = (some v, t)) :
    (node.eval options run' scope).runOn s = (some v, t) := by
  induction hsize : node.nodes.length using Nat.strongRecOn generalizing node s v t with
  | ind n ih =>
      subst hsize
      have hparts (vs : List Value) (part : Part) (hpart : part ∈ node.parts vs) :
          ∀ s v t, (part.eval options run scope).runOn s = (some v, t) →
            (part.eval options run' scope).runOn s = (some v, t) :=
        fun s v t hvalue => ih _ (length_nodes_lt hpart) part s v t hvalue rfl
      rcases gives_or_reaches node s with ⟨vs, u, hgives⟩ | ⟨k, part, u, hreaches, hstops⟩
      · rcases hgives.opens_or_steady with ⟨a, vs', u', hgives', hactivation⟩ | ⟨w, u', hsteady⟩
        · obtain ⟨conclude, hfinish⟩ := runOn_finish_of_activation hactivation
          rw [hgives'.runOn_eval, hfinish run] at h
          obtain ⟨hvalue, hstate⟩ := Prod.mk.inj h
          obtain ⟨w, hw, hconclude⟩ := Option.map_eq_some_iff.mp hvalue
          have hbody : a.result run' = (some w, t) := hle a w t (Prod.ext hw hstate)
          rw [(hgives'.mono (hparts vs')).runOn_eval, hfinish run', hbody, ← hconclude]
          rfl
        · rw [hgives.runOn_eval, hsteady run] at h
          rw [(hgives.mono (hparts vs)).runOn_eval, hsteady run', h]
      · obtain ⟨vs, hmem⟩ := hreaches.mem_parts
        rw [hreaches.runOn_eval_of_stops hstops] at h
        rw [h] at hstops
        exact (hreaches.mono hparts).runOn_eval (hparts vs part hmem _ _ _ h) (hstops v rfl)

theorem runBody_le_succ (options : Options) (depth : Nat) :
    RunBody.Le (runBody options depth) (runBody options (depth + 1)) := by
  induction depth with
  | zero => exact fun _ _ _ h => nomatch h
  | succ depth ih => exact fun a v t h => eval_mono ih (block a.body) a.state v t h

/-- Under a higher limit an evaluation with a result has the same result. -/
theorem eval_mono_depth {depth depth' : Nat} (hle : depth ≤ depth')
    (h : (node.eval options (runBody options depth) scope).runOn s = (some v, t)) :
    (node.eval options (runBody options depth') scope).runOn s = (some v, t) := by
  induction hle with
  | refl => exact h
  | step _ ih => exact eval_mono (runBody_le_succ options _) node s v t ih

/-- An evaluation settles on one result, or it nests bodies beyond every limit. -/
theorem settles_or_nests (options : Options) (node : Part) (scope : Nat) (s : State) :
    (∃ depth v t, ∀ depth' ≥ depth,
      (node.eval options (runBody options depth') scope).runOn s = (some v, t)) ∨
      ∀ depth, node.Nests options depth scope s := by
  by_cases hnests : ∀ depth, node.Nests options depth scope s
  · exact .inr hnests
  · obtain ⟨depth, hdepth⟩ := Classical.not_forall.mp hnests
    rw [← eval_eq_none_iff_nests] at hdepth
    obtain ⟨v, hv⟩ := Option.ne_none_iff_exists'.mp hdepth
    exact .inl ⟨depth, v, _, fun depth' hle => eval_mono_depth hle (Prod.ext hv rfl)⟩

end Part

end Scripting
