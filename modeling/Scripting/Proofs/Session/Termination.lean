import Scripting.Proofs.Run.Starts
import Scripting.Proofs.Session.Batch

/-!
# Runs come to an end

Evaluating a program under a limit on how deep bodies nest comes to an end. Without a limit that is
reached it settles on one result; otherwise it nests bodies beyond every limit, and that is what it
reports. A program that calls nothing but built-in functions runs no bodies at all.
-/

namespace Scripting

open Eval

namespace Part

/-- Whether a node, if it calls a function, calls a built-in one by its name, and makes no
object. -/
def callsBuiltins : Part → Bool
  | expr (.new _ _) => false
  | expr (.call (.ident name) _) => (Builtin.ofName? name).isSome
  | expr (.call _ _) => false
  | _ => true

variable {options : Options} {run : RunBody} {scope : Nat} {node : Part} {s : State}
  {a : Activation}

/-- The name of a built-in function means that function, whatever the scope says. -/
theorem runOn_readName_of_builtin {name : String} {b : Builtin} (h : Builtin.ofName? name = some b)
    (scope : Nat) (s : State) : (readName scope name).runOn s = (some (.builtin b), s) := by
  rw [readName, h]
  rfl

/-- What calls built-in functions only runs no body. -/
theorem not_opens (h : node.callsBuiltins = true) : ¬node.Opens options run scope s a := by
  rintro ⟨vs, t, hgives, hactivation⟩
  unfold activation? at hactivation
  split at hactivation
  · cases h
  · cases h
  · next callee args function rest _ =>
      cases callee with
      | ident name =>
          obtain ⟨b, hb⟩ := Option.isSome_iff_exists.mp h
          cases hgives with
          | cons hvalue =>
              cases (runOn_readName_of_builtin hb scope s).symm.trans hvalue
              cases hactivation
      | _ => cases h
  · cases hactivation

theorem callsBuiltins_of_nodes (h : ∀ n ∈ node.nodes, n.callsBuiltins = true) :
    node.callsBuiltins = true := by
  cases node with
  | expr e =>
      refine h _ ?_
      rw [nodes, nodes_expr]
      exact List.mem_cons_self
  | _ => rfl

theorem not_comesTo (h : ∀ n ∈ node.nodes, n.callsBuiltins = true) :
    ¬node.ComesTo options run scope s a := by
  rintro ⟨inner, t, hencloses, hopens⟩
  have hall (outer : Part × State)
      (hencloses : Relation.ReflTransGen
        (fun a b : Part × State => ∃ k, a.1.Reaches options run scope a.2 k b.1 b.2) outer
        (inner, t))
      (h : ∀ n ∈ outer.1.nodes, n.callsBuiltins = true) : False := by
    induction hencloses using Relation.ReflTransGen.head_induction_on with
    | refl => exact not_opens (callsBuiltins_of_nodes h) hopens
    | head hstep _ ih =>
        obtain ⟨k, hreaches⟩ := hstep
        obtain ⟨vs, hmem⟩ := hreaches.mem_parts
        exact ih fun n hn => h n (mem_nodes_of_mem_parts hmem hn)
  exact hall (node, s) hencloses h

/-- What nodes with all their parts start are evaluations of such nodes, if these call built-in
functions only. -/
theorem node_mem_of_started {nodes : List Part}
    (hparts : ∀ n ∈ nodes, ∀ vs, ∀ part ∈ n.parts vs, part ∈ nodes)
    (hbuiltins : ∀ n ∈ nodes, n.callsBuiltins = true) {outer inner : Evaluation}
    (houter : outer.node ∈ nodes)
    (hstarted : Relation.ReflTransGen (Evaluation.Starts options) outer inner) :
    inner.node ∈ nodes := by
  induction hstarted with
  | refl => exact houter
  | tail _ hstarts ih =>
      cases hstarts with
      | part hreaches =>
          obtain ⟨vs, hpart⟩ := hreaches.mem_parts
          exact hparts _ ih vs _ hpart
      | body hopens => exact absurd hopens (not_opens (hbuiltins _ ih))

/-- A node that calls built-in functions only gives the same value under every limit. -/
theorem exists_runOn_eval (options : Options) (scope : Nat) {node : Part}
    (h : ∀ n ∈ node.nodes, n.callsBuiltins = true) (s : State) :
    ∃ v t, ∀ depth, (node.eval options (runBody options depth) scope).runOn s = (some v, t) := by
  have hsome : ((node.eval options (runBody options 0) scope).runOn s).1 ≠ none := by
    rw [ne_eq, eval_eq_none_iff_nests]
    rintro ⟨a, ha⟩
    exact not_comesTo h ha
  obtain ⟨v, hv⟩ := Option.ne_none_iff_exists'.mp hsome
  exact ⟨v, _, fun depth => eval_mono_depth (Nat.zero_le depth) (Prod.ext hv rfl)⟩

end Part

/-! ### Evaluations in a session -/

namespace Session

theorem evaluateWithin_block (session : Session) (depth : Nat) (program : Block) :
    session.evaluateWithin depth program =
      match ((Part.block program).eval session.options (runBody session.options depth)
        session.root).runOn session.state with
      | (some v, t) => (.ok v.unwrapReturn, { session with state := t })
      | (none, t) => (.error .tooDeep, { session with state := t }) :=
  evaluateWithin_eq depth session program

/-- An evaluation gives up under a limit exactly if it nests more bodies than that. -/
theorem evaluateWithin_eq_tooDeep_iff (session : Session) (depth : Nat) (program : Block) :
    (session.evaluateWithin depth program).1 = .error .tooDeep ↔
      (Part.block program).Nests session.options depth session.root session.state := by
  rw [← Part.eval_eq_none_iff_nests, evaluateWithin_block]
  split
  · next h =>
      rw [h]
      exact iff_of_false (fun h => nomatch h) (Option.some_ne_none _)
  · next h =>
      rw [h]
      exact iff_of_true rfl rfl

/-- An evaluation settles on one result, or it gives up under every limit. -/
theorem evaluateWithin_settles (session : Session) (program : Block) :
    (∃ depth v after, ∀ depth' ≥ depth, session.evaluateWithin depth' program = (.ok v, after)) ∨
      ∀ depth, (Part.block program).Nests session.options depth session.root session.state := by
  refine (Part.settles_or_nests session.options (.block program) session.root
    session.state).imp_left ?_
  rintro ⟨depth, v, t, h⟩
  refine ⟨depth, v.unwrapReturn, { session with state := t }, fun depth' hle => ?_⟩
  rw [evaluateWithin_block, h depth' hle]

/-- Under a higher limit an evaluation with a value has the same value. -/
theorem evaluateWithin_mono_depth {session after : Session} {program : Block} {v : Value}
    {depth depth' : Nat} (hle : depth ≤ depth')
    (h : session.evaluateWithin depth program = (.ok v, after)) :
    session.evaluateWithin depth' program = (.ok v, after) := by
  rw [evaluateWithin_block] at h ⊢
  split at h
  · next w t hrun =>
      rw [Part.eval_mono_depth hle hrun]
      exact h
  · cases h

/-- A program that calls built-in functions only gives the same value under every limit. -/
theorem exists_evaluateWithin (session : Session) {program : Block}
    (h : ∀ n ∈ Block.nodes program, n.callsBuiltins = true) :
    ∃ v after, ∀ depth, session.evaluateWithin depth program = (.ok v, after) := by
  have hnodes : ∀ n ∈ (Part.block program).nodes, n.callsBuiltins = true := h
  obtain ⟨v, t, heval⟩ := Part.exists_runOn_eval session.options session.root hnodes session.state
  refine ⟨v.unwrapReturn, { session with state := t }, fun depth => ?_⟩
  rw [evaluateWithin_block, heval depth]

end Session

/-- Under a limit on how deep bodies nest an evaluation starts finitely many evaluations, none of
them without end, and looks names up along chains of scopes that end. It gives up exactly if it
nests more bodies than the limit allows. So an evaluation settles on one result, or it nests bodies
beyond every limit and reports that. A program that makes no objects and calls no functions but the
built-in ones gives the same value under every limit. -/
theorem scripts_never_hang (session : Session) (program : Block) :
    (WellFounded fun inner outer : Evaluation => outer.Starts session.options inner) ∧
      (∀ outer, {inner | Relation.ReflTransGen (Evaluation.Starts session.options) outer
        inner}.Finite) ∧
      (∀ (s : State) scope, (s.scopes.chain scope).Pairwise (· > ·)) ∧
      (∀ depth, (session.evaluateWithin depth program).1 = .error .tooDeep ↔
        (Part.block program).Nests session.options depth session.root session.state) ∧
      ((∃ depth v after, ∀ depth' ≥ depth,
          session.evaluateWithin depth' program = (.ok v, after)) ∨
        ∀ depth, (Part.block program).Nests session.options depth session.root session.state ∧
          (session.evaluateWithin depth program).1 = .error .tooDeep) ∧
      Failure.tooDeep.message = "maximum recursion depth exceeded" ∧
      ((∀ n ∈ Block.nodes program, n.callsBuiltins = true) →
        ∃ v after, ∀ depth, session.evaluateWithin depth program = (.ok v, after)) := by
  refine ⟨Evaluation.wellFounded_starts _, Evaluation.finite_started _,
    fun s scope => s.scopes.pairwise_chain scope,
    fun depth => session.evaluateWithin_eq_tooDeep_iff depth program, ?_, rfl,
    session.exists_evaluateWithin⟩
  refine (session.evaluateWithin_settles program).imp_right fun h depth => ?_
  exact ⟨h depth, (session.evaluateWithin_eq_tooDeep_iff depth program).mpr (h depth)⟩

/-- Prints the length of a text. -/
def measuringProgram : Block :=
  [.expr (.call (.ident "print") [.call (.ident "len") [.str "abc"]])]

theorem scripts_never_hang_of_measuringProgram :
    (∀ n ∈ Block.nodes measuringProgram, n.callsBuiltins = true) ∧
      ∀ depth, ((Session.start {}).evaluateWithin depth measuringProgram).1 = .ok .null := by
  have hbuiltins : ∀ n ∈ Block.nodes measuringProgram, n.callsBuiltins = true := by decide
  obtain ⟨-, -, -, -, -, -, hsame⟩ := scripts_never_hang (Session.start {}) measuringProgram
  obtain ⟨v, after, hresult⟩ := hsame hbuiltins
  have hzero : ((Session.start {}).evaluateWithin 0 measuringProgram).1 = .ok .null := rfl
  refine ⟨hbuiltins, fun depth => ?_⟩
  rw [hresult depth, ← hzero, hresult 0]

-- A function that calls itself nests bodies beyond every limit.
example : ((Session.start {}).evaluateWithin 5
    [.letIn "f" (.function (.mk [] [.expr (.call (.ident "f") [])])),
      .expr (.call (.ident "f") [])]).1 = .error .tooDeep := by
  cbv

end Scripting
