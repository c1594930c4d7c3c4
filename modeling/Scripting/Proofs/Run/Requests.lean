import Scripting.Proofs.Run.Evaluation
import Scripting.Proofs.Run.Reachable

/-!
# Reachable states keep invariants

An invariant of evaluation that allows every tree and every integer is kept by all that a host can
ask for, its own data included. So in every reachable state all that is stored satisfies it
everywhere.
-/

namespace Scripting

namespace Invariant

open Eval

variable {P : Value → Prop} {E : RuntimeError → Prop} {p : Expr → Prop}

mutual

theorem keeps_toValue (inv : Invariant P E p) (hinteger : ∀ n, P (.integer n)) (data : HostValue) :
    data.toValue.Keeps (Safe P) fun v => v.Everywhere P := by
  match data with
  | .null =>
      rw [HostValue.toValue]
      exact Keeps.pure inv.null
  | .boolean b =>
      rw [HostValue.toValue]
      exact Keeps.pure (inv.boolean b)
  | .integer n =>
      rw [HostValue.toValue]
      exact Keeps.pure (hinteger n)
  | .string s =>
      rw [HostValue.toValue]
      exact Keeps.pure (inv.string s)
  | .array elements =>
      rw [HostValue.toValue]
      refine (inv.keeps_toValues hinteger elements).bind fun vs hvs => ?_
      exact keeps_freshIdent.bind fun i _ => Keeps.pure (inv.everywhere_array i hvs)

theorem keeps_toValues (inv : Invariant P E p) (hinteger : ∀ n, P (.integer n))
    (elements : List HostValue) :
    (HostValue.toValues elements).Keeps (Safe P) fun vs => ∀ v ∈ vs, v.Everywhere P := by
  match elements with
  | [] =>
      rw [HostValue.toValues]
      exact Keeps.pure fun v hv => absurd hv List.not_mem_nil
  | data :: rest =>
      rw [HostValue.toValues]
      refine (inv.keeps_toValue hinteger data).bind fun v hv => ?_
      refine (inv.keeps_toValues hinteger rest).bind fun vs hvs => ?_
      exact Keeps.pure (List.forall_mem_cons.mpr ⟨hv, hvs⟩)

end

section

variable (inv : Invariant P E p) (hinteger : ∀ n, P (.integer n))
include inv hinteger

theorem keeps_bareObject (scope : Nat) (name className : String)
    (properties : List (String × HostValue)) :
    (Session.bareObject scope name className properties).Keeps (Safe P) (Answer P E) := by
  unfold Session.bareObject
  refine (keeps_lookup scope className).bind fun r hr => ?_
  split
  · next _ c =>
      have hc : (Value.cls c).Everywhere P := hr _ rfl
      have hrows : Keeps (Safe P) (Table.All fun v => v.Everywhere P)
          (properties.mapM fun row => do return (row.1, ← row.2.toValue)) :=
        Keeps.mapM properties fun row _ =>
          (inv.keeps_toValue hinteger row.2).bind fun v hv => Keeps.pure hv
      refine hrows.bind fun rows hrows => ?_
      refine (keeps_newObject c (Table.All.ofList hrows)).bind fun o ho => ?_
      have hobject : (Value.object o).Everywhere P := inv.everywhere_object.mpr (ho ▸ hc)
      exact (keeps_bindName scope name hobject).bind fun _ _ => Keeps.pure (.ordinary hobject)
  · exact inv.keeps_fail _ (by simp) (by simp)
  · exact inv.keeps_fail _ (by simp) (by simp)

variable (htree : ∀ e, p e)
include htree

/-- Every request passes through states that keep the invariant and is answered as it allows. -/
theorem keeps_answer (request : HostRequest) :
    request.answer.Keeps (Safe P) (Outcome P E) := by
  cases request with
  | root => exact keeps_rootScope.bind fun _ _ => Keeps.pure (.ordinary inv.null)
  | program options depth scope program =>
      have hprogram := Block.forall_of htree program
      exact keeps_outcome (inv.keeps_program options depth scope hprogram)
  | statement options depth scope s =>
      exact inv.keeps_stmt (inv.keeps_runBody options depth) scope s (Stmt.forall_of htree s)
  | object scope name className properties =>
      exact keeps_outcome (inv.keeps_bareObject hinteger scope name className properties)

theorem safe_of_reachable {s : State} (hs : s.Reachable) : Safe P s :=
  hs.of_kept State.Stores.initial fun request s t hs ht =>
    (inv.keeps_answer hinteger htree request s hs).1 t ht

end

end Invariant

end Scripting
