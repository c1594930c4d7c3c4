import Scripting.Proofs.Run.Requests

/-!
# Signals are never held

A `return` and a runtime error are values like any other to the evaluator: a scope could bind them,
a list, a map or an object could hold them, and a call could be given them. That none of this
happens is the evaluator's own doing. In every reachable state no signal is stored anywhere, every
list of arguments is free of them, the value that a `return` carries is too, and what a call, an
object's making and a program give is never a `return`.
-/

namespace Scripting

namespace Value

/-- A value that is no signal and holds none. -/
def SignalFree (v : Value) : Prop :=
  v.Everywhere fun w => w.isSignal = false

/-- What an evaluation may give: a value without signals, a `return` with such a value, or an
error. -/
def Deliverable (v : Value) : Prop :=
  v.SignalFree ∨ (∃ w : Value, v = returned w ∧ w.SignalFree) ∨ ∃ e, v = failed e

end Value

open Eval

/-- Whatever the tree, evaluation stays among values without signals. -/
theorem invariant_signalFree :
    Invariant (fun v => v.isSignal = false) (fun _ => True) fun _ => True where
  ordinary _ h := h
  literal _ _ _ := rfl
  wrapped _ := rfl
  length _ := rfl
  string _ := rfl
  boolean _ := rfl
  null := rfl
  builtin _ := rfl
  array _ _ _ := rfl
  hash _ _ _ := rfl
  function _ := ⟨fun _ => FunctionLiteral.forall_of (fun _ => trivial) _, fun _ => rfl⟩
  cls _ := ⟨fun _ _ _ => FunctionLiteral.forall_of (fun _ => trivial) _, fun _ => rfl⟩
  object _ := ⟨fun _ => rfl, fun _ => rfl⟩
  boundMethod _ _ _ _ :=
    ⟨fun _ => ⟨FunctionLiteral.forall_of (fun _ => trivial) _, rfl, rfl⟩, fun _ => rfl⟩
  missing _ := trivial
  unassignable _ _ _ _ := trivial
  runtime _ _ _ := trivial

theorem State.Reachable.stores_signalFree {s : State} (hs : s.Reachable) :
    s.Stores Value.SignalFree :=
  invariant_signalFree.safe_of_reachable (fun _ => rfl) (fun _ => trivial) hs

theorem Value.deliverable_of_outcome {v : Value}
    (h : Outcome (fun w => w.isSignal = false) (fun _ => True) v) : v.Deliverable := by
  rcases h with ⟨h | h⟩ | h
  · exact .inl h
  · exact .inr (.inr ⟨_, rfl⟩)
  · exact .inr (.inl ⟨_, rfl, h⟩)

/-- In every reachable state no binding and no property is a signal or holds one. Evaluated there,
an expression and a statement give a value without signals, a `return` with such a value or an
error; gathered arguments are free of signals; and a call, the making of an object and a program do
not give a `return`. -/
theorem signals_are_never_held {s : State} (hs : s.Reachable) :
    s.Stores Value.SignalFree ∧
      ∀ (options : Options) (depth scope : Nat),
        (∀ (e : Expr) (v : Value),
          ((e.eval options (runBody options depth) scope).runOn s).1 = some v → v.Deliverable) ∧
        (∀ (st : Stmt) (v : Value),
          ((st.eval options (runBody options depth) scope).runOn s).1 = some v →
            v.Deliverable) ∧
        (∀ (es : List Expr) (vs : List Value),
          ((Expr.evalAll options (runBody options depth) scope es).runOn s).1 = some (.ok vs) →
            ∀ v ∈ vs, v.SignalFree) ∧
        (∀ (callee : Value) (args : List Value) (receiver : Option Object) (v : Value),
          callee.SignalFree → (∀ a ∈ args, a.SignalFree) →
            ((callValue options (runBody options depth) callee args receiver).runOn s).1 = some v →
              ∀ w, v ≠ .returned w) ∧
        (∀ (callee : Value) (args : List Value) (v : Value),
          callee.SignalFree → (∀ a ∈ args, a.SignalFree) →
            ((makeObject options (runBody options depth) callee args).runOn s).1 = some v →
              ∀ w, v ≠ .returned w) ∧
        (∀ (program : Block) (v : Value),
          ((Block.evalProgram options (runBody options depth) scope program).runOn s).1 = some v →
            ∀ w, v ≠ .returned w) := by
  have inv := invariant_signalFree
  have hstored := hs.stores_signalFree
  refine ⟨hstored, fun options depth scope => ?_⟩
  have hbodies := inv.keeps_runBody options depth
  have hany : ∀ e : Expr, True := fun _ => trivial
  refine ⟨?_, ?_, ?_, ?_, ?_, ?_⟩
  · intro e v hv
    have htree := Expr.forall_of hany e
    exact Value.deliverable_of_outcome ((inv.keeps_expr hbodies scope e htree).result hstored hv)
  · intro st v hv
    have htree := Stmt.forall_of hany st
    exact Value.deliverable_of_outcome ((inv.keeps_stmt hbodies scope st htree).result hstored hv)
  · intro es vs hvs
    have htree := Expr.forallIn_of hany es
    exact (inv.keeps_exprs hbodies scope es htree).result hstored hvs
  · intro callee args receiver v hcallee hargs hv
    have hreceiver : ∀ o, receiver = some o → (Value.object o).SignalFree := fun _ _ => rfl
    have hanswer := (inv.keeps_callValue hbodies hcallee hargs hreceiver).result hstored hv
    exact inv.answer_ne_returned hanswer
  · intro callee args v hcallee hargs hv
    have hanswer := (inv.keeps_makeObject hbodies hcallee hargs).result hstored hv
    exact inv.answer_ne_returned hanswer
  · intro program v hv
    have htree := Block.forall_of hany program
    have hanswer := (inv.keeps_program options depth scope htree).result hstored hv
    exact inv.answer_ne_returned hanswer

/-- Requests under which a `return` stands inside the list that a `let` would bind. -/
def returnInsideLet : List HostRequest :=
  [.root, .program {} 5 0 [.letIn "kept" (.array [.str "kept"]),
    .letIn "lost" (.array [.cond (.bool true) [.ret (.str "given")] none])]]

theorem signals_are_never_held_inside_let :
    ((State.initial.serve returnInsideLet).scopes.bindings 0).names = ["kept"] ∧
      (State.initial.serve returnInsideLet).Reachable ∧
        (State.initial.serve returnInsideLet).Stores Value.SignalFree :=
  ⟨rfl, State.reachable_serve returnInsideLet,
    (signals_are_never_held (State.reachable_serve returnInsideLet)).1⟩

end Scripting
