import Scripting.Session

/-!
# Reachable states

A host asks for one thing after another: a new root scope, the evaluation of a program or of a
single statement, an object made without its constructor. A state is reachable when a run of such
requests passes through it, be it between two requests or in the middle of one.
-/

namespace Scripting

/-- What a host can ask for. -/
inductive HostRequest where
  /-- A new root scope. -/
  | root
  /-- A program evaluated in a scope, with a limit on how deep bodies nest. -/
  | program (options : Options) (depth scope : Nat) (program : Block)
  /-- A statement evaluated by itself. -/
  | statement (options : Options) (depth scope : Nat) (s : Stmt)
  /-- An object that the host makes and binds. -/
  | object (scope : Nat) (name className : String) (properties : List (String × HostValue))

/-- The computation that answers a request. -/
def HostRequest.answer : HostRequest → Eval Value
  | root => do
      let _ ← Eval.rootScope
      pure .null
  | program options depth scope block =>
      Block.evalProgram options (runBody options depth) scope block
  | statement options depth scope s => s.eval options (runBody options depth) scope
  | object scope name className properties => Session.bareObject scope name className properties

namespace State

/-- The state that the requests of a list leave, one after another. -/
def serve (s : State) (requests : List HostRequest) : State :=
  requests.foldl (fun s request => (request.answer.runOn s).2) s

/-- A run of requests passes through the state. -/
def Reachable (s : State) : Prop :=
  ∃ requests request, (HostRequest.answer request).Passes (State.initial.serve requests) s

theorem reachable_serve (requests : List HostRequest) :
    (State.initial.serve requests).Reachable :=
  ⟨requests, .root, HostRequest.root.answer.passes_start _⟩

theorem serve_kept {I : State → Prop}
    (hkept : ∀ (request : HostRequest) (s t : State), I s → request.answer.Passes s t → I t)
    (requests : List HostRequest) {s : State} (hs : I s) : I (s.serve requests) := by
  induction requests generalizing s with
  | nil => exact hs
  | cons request requests ih => exact ih (hkept request s _ hs (request.answer.passes_end s))

/-- What holds at the start and is kept at every moment of every request holds in every reachable
state. -/
theorem Reachable.of_kept {I : State → Prop} (hinitial : I .initial)
    (hkept : ∀ (request : HostRequest) (s t : State), I s → request.answer.Passes s t → I t)
    {s : State} (hs : s.Reachable) : I s := by
  obtain ⟨requests, request, hpasses⟩ := hs
  exact hkept request _ _ (serve_kept hkept requests hinitial) hpasses

end State

end Scripting
