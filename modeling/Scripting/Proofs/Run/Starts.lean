import Mathlib.Data.Set.Finite.Lattice
import Scripting.Proofs.Run.Nesting

/-!
# The evaluations that an evaluation starts

An evaluation starts those of its parts and that of the body it runs, if it runs one. With a limit
on how deep bodies nest it never starts evaluations without end: a part has fewer nodes than what it
is a part of, and a body runs under a lower limit. Each starts only some, so all that one starts,
itself and through others, are finitely many.
-/

namespace Scripting

open Scripting.Part

/-- An evaluation of a node in a scope and on a state, with the number of bodies that may nest. -/
structure Evaluation where
  depth : Nat
  node : Part
  scope : Nat
  state : State

namespace Evaluation

/-- The evaluations that an evaluation starts itself: those of the parts it comes to and that of the
body it runs. Without a body left under the limit none is started. -/
inductive Starts (options : Options) : Evaluation → Evaluation → Prop where
  | part {depth scope k : Nat} {node part : Part} {s t : State}
      (h : node.Reaches options (runBody options depth) scope s k part t) :
      Starts options ⟨depth, node, scope, s⟩ ⟨depth, part, scope, t⟩
  | body {depth scope : Nat} {node : Part} {s : State} {a : Activation}
      (h : node.Opens options (runBody options (depth + 1)) scope s a) :
      Starts options ⟨depth + 1, node, scope, s⟩ ⟨depth, .block a.body, a.scope, a.state⟩

/-- The evaluations that an evaluation starts itself, where those of the parts that came before
satisfy `P`. -/
inductive StartsAfter (options : Options) (P : Evaluation → Prop) :
    Evaluation → Evaluation → Prop where
  | part {depth scope k : Nat} {node part : Part} {s t : State}
      (h : node.Reaches options (runBody options depth) scope s k part t)
      (hbefore : ∀ j < k, ∀ earlier u,
        node.Reaches options (runBody options depth) scope s j earlier u →
          P ⟨depth, earlier, scope, u⟩) :
      StartsAfter options P ⟨depth, node, scope, s⟩ ⟨depth, part, scope, t⟩
  | body {depth scope : Nat} {node : Part} {s : State} {a : Activation}
      (h : node.Opens options (runBody options (depth + 1)) scope s a)
      (hbefore : ∀ k part u,
        node.Reaches options (runBody options (depth + 1)) scope s k part u →
          P ⟨depth + 1, part, scope, u⟩) :
      StartsAfter options P ⟨depth + 1, node, scope, s⟩ ⟨depth, .block a.body, a.scope, a.state⟩

/-- The limit, and below it the number of nodes. -/
def size (e : Evaluation) : Nat × Nat :=
  (e.depth, e.node.nodes.length)

variable {options : Options}

theorem Starts.size_lt {outer inner : Evaluation} (h : outer.Starts options inner) :
    Prod.Lex (· < ·) (· < ·) inner.size outer.size := by
  cases h with
  | part h =>
      obtain ⟨vs, hmem⟩ := h.mem_parts
      exact .right _ (length_nodes_lt hmem)
  | body h => exact .left _ _ (Nat.lt_succ_self _)

theorem StartsAfter.starts {P : Evaluation → Prop} {outer inner : Evaluation}
    (h : outer.StartsAfter options P inner) : outer.Starts options inner := by
  cases h with
  | part h _ => exact .part h
  | body h _ => exact .body h

theorem wellFounded_starts (options : Options) :
    WellFounded fun inner outer : Evaluation => outer.Starts options inner :=
  Subrelation.wf (fun h => Starts.size_lt h)
    (InvImage.wf size (Prod.lex Nat.lt_wfRel Nat.lt_wfRel).wf)

end Evaluation

/-! ### Each evaluation starts only some -/

namespace Part

variable {options : Options} {run : RunBody} {scope : Nat} {node : Part} {s : State}

theorem Gives.unique {parts : List Part} {t t' : State} {vs vs' : List Value}
    (h : Gives options run scope parts s vs t) (h' : Gives options run scope parts s vs' t') :
    vs = vs' ∧ t = t' := by
  induction h generalizing vs' with
  | nil =>
      cases h'
      exact ⟨rfl, rfl⟩
  | cons hvalue _ _ ih =>
      cases h' with
      | cons hvalue' _ hrest' =>
          cases hvalue.symm.trans hvalue'
          obtain ⟨rfl, rfl⟩ := ih hrest'
          exact ⟨rfl, rfl⟩

theorem head?_parts_eq (node : Part) (vs : List Value) :
    (node.parts vs).head? = (node.parts []).head? := by
  cases vs with
  | nil => rfl
  | cons v vs => rw [parts_cons, head?_parts]

/-- All ways through the parts of a node go along the same parts, which the first value decides. -/
theorem parts_unique {earlier later earlier' later' : List Part} {t t' : State}
    {vs vs' : List Value} (hparts : node.parts vs = earlier ++ later)
    (h : Gives options run scope earlier s vs t) (hparts' : node.parts vs' = earlier' ++ later')
    (h' : Gives options run scope earlier' s vs' t') (hnil : vs = [] ↔ vs' = []) :
    node.parts vs = node.parts vs' := by
  cases h with
  | nil => rw [hnil.mp rfl]
  | @cons first rest _ _ _ v ws hvalue =>
      cases h' with
      | nil => cases hnil.mpr rfl
      | @cons first' rest' _ _ _ v' ws' hvalue' =>
          have hfirst := head?_parts_eq node (v :: ws)
          have hfirst' := head?_parts_eq node (v' :: ws')
          rw [hparts, List.cons_append, List.head?_cons] at hfirst
          rw [hparts', List.cons_append, List.head?_cons] at hfirst'
          cases hfirst.trans hfirst'.symm
          cases hvalue.symm.trans hvalue'
          rw [parts_cons node v ws, parts_cons node v ws']

theorem Reaches.unique {k : Nat} {part part' : Part} {t t' : State}
    (h : node.Reaches options run scope s k part t)
    (h' : node.Reaches options run scope s k part' t') : part = part' ∧ t = t' := by
  obtain ⟨earlier, later, vs, hparts, rfl, hgives⟩ := h
  obtain ⟨earlier', later', vs', hparts', hk', hgives'⟩ := h'
  have hnil : vs = [] ↔ vs' = [] := by
    rw [← List.length_eq_zero_iff, ← List.length_eq_zero_iff, hgives.length_eq, hgives'.length_eq,
      hk']
  have hsame := parts_unique hparts hgives hparts' hgives' hnil
  rw [hparts, hparts'] at hsame
  obtain ⟨rfl, hrest⟩ := List.append_inj hsame hk'.symm
  exact ⟨(List.cons.inj hrest).1, (hgives.unique hgives').2⟩

/-- The part that a node comes to is one of a fixed number. -/
theorem exists_reaches_lt (options : Options) (run : RunBody) (scope : Nat) (node : Part)
    (s : State) : ∃ n, ∀ k part t, node.Reaches options run scope s k part t → k < n := by
  by_cases hlater : ∃ k part t, node.Reaches options run scope s (k + 1) part t
  · obtain ⟨k, part, t, earlier, later, vs, hparts, hk, hgives⟩ := hlater
    have hne : vs ≠ [] := fun h => by
      rw [← hgives.length_eq, h] at hk
      cases hk
    refine ⟨(node.parts vs).length, ?_⟩
    rintro k' part' t' ⟨earlier', later', vs', hparts', rfl, hgives'⟩
    by_cases hne' : vs' = []
    · have hzero : earlier'.length = 0 := by
        rw [← hgives'.length_eq, hne']
        rfl
      rw [hzero, hparts, List.length_append, List.length_cons]
      omega
    · rw [parts_unique hparts hgives hparts' hgives' (iff_of_false hne hne'), hparts',
        List.length_append, List.length_cons]
      omega
  · refine ⟨1, fun k part t h => ?_⟩
    cases k with
    | zero => exact Nat.one_pos
    | succ k => exact absurd ⟨k, part, t, h⟩ hlater

theorem Gives.eq_nil_iff {vs : List Value} {t : State}
    (h : Gives options run scope (node.parts vs) s vs t) : vs = [] ↔ node.parts [] = [] := by
  rw [← List.length_eq_zero_iff, h.length_eq, List.length_eq_zero_iff, ← List.head?_eq_none_iff,
    head?_parts_eq, List.head?_eq_none_iff]

/-- The parts of a node give the same in all ways through them. -/
theorem Gives.all_unique {t t' : State} {vs vs' : List Value}
    (h : Gives options run scope (node.parts vs) s vs t)
    (h' : Gives options run scope (node.parts vs') s vs' t') : vs = vs' ∧ t = t' := by
  have hsame := parts_unique (List.append_nil _).symm h (List.append_nil _).symm h'
    (h.eq_nil_iff.trans h'.eq_nil_iff.symm)
  rw [hsame] at h
  exact h.unique h'

theorem Opens.unique {a a' : Activation} (h : node.Opens options run scope s a)
    (h' : node.Opens options run scope s a') : a = a' := by
  obtain ⟨vs, t, hgives, ha⟩ := h
  obtain ⟨vs', t', hgives', ha'⟩ := h'
  obtain ⟨rfl, rfl⟩ := hgives.all_unique hgives'
  exact Option.some.inj (ha.symm.trans ha')

end Part

namespace Evaluation

/-- An evaluation starts finitely many evaluations itself. -/
theorem finite_starts (options : Options) (outer : Evaluation) :
    {inner | outer.Starts options inner}.Finite := by
  obtain ⟨depth, node, scope, s⟩ := outer
  obtain ⟨n, hn⟩ := exists_reaches_lt options (runBody options depth) scope node s
  have hparts (k : Nat) : {inner : Evaluation | ∃ part t, inner = ⟨depth, part, scope, t⟩ ∧
      node.Reaches options (runBody options depth) scope s k part t}.Finite := by
    refine Set.Subsingleton.finite ?_
    rintro _ ⟨part, t, rfl, h⟩ _ ⟨part', t', rfl, h'⟩
    obtain ⟨rfl, rfl⟩ := h.unique h'
    rfl
  have hbodies : {inner : Evaluation |
      ∃ depth' a, inner = ⟨depth', .block a.body, a.scope, a.state⟩ ∧ depth = depth' + 1 ∧
        node.Opens options (runBody options depth) scope s a}.Finite := by
    refine Set.Subsingleton.finite ?_
    rintro _ ⟨depth', a, rfl, hdepth, h⟩ _ ⟨depth'', a', rfl, hdepth', h'⟩
    obtain rfl := h.unique h'
    obtain rfl : depth' = depth'' := by omega
    rfl
  refine (((Set.finite_lt_nat n).biUnion fun k _ => hparts k).union hbodies).subset ?_
  rintro _ (h | h)
  · exact .inl (Set.mem_biUnion (hn _ _ _ h) ⟨_, _, rfl, h⟩)
  · exact .inr ⟨_, _, rfl, rfl, h⟩

/-- An evaluation starts finitely many evaluations, itself and through those that it starts. -/
theorem finite_started (options : Options) (outer : Evaluation) :
    {inner | Relation.ReflTransGen (Starts options) outer inner}.Finite := by
  induction outer using (wellFounded_starts options).induction with
  | _ outer ih =>
      refine ((Set.finite_singleton outer).union
        ((finite_starts options outer).biUnion fun inner h => ih inner h)).subset ?_
      intro inner h
      rcases h.cases_head with rfl | ⟨between, hstart, hrest⟩
      · exact .inl rfl
      · exact .inr (Set.mem_biUnion hstart hrest)

end Evaluation

end Scripting
