import Scripting.Session
import Scripting.Proofs.Run.Simulation

/-!
# Simulation of sessions

New sessions start in corresponding states, whatever the second one finds, and evaluating a program
in corresponding sessions gives corresponding results.
-/

namespace Scripting

/-- An evaluation in a session is a run of the program on its state. -/
theorem Session.evaluateWithin_of_runOn (session : Session) {depth : Nat} {program : Block}
    {r : Option Value} {t : State}
    (h : (program.evalProgram session.options (runBody session.options depth)
      session.root).runOn session.state = (r, t)) :
    session.evaluateWithin depth program =
      (r.elim (.error .tooDeep) .ok, { session with state := t }) := by
  unfold evaluateWithin perform
  rw [h]
  cases r <;> rfl

/-- An evaluation changes nothing of a session but its state. -/
theorem Session.evaluateWithin_snd (session : Session) (depth : Nat) (program : Block) :
    (session.evaluateWithin depth program).2 =
      { session with state := (session.evaluateWithin depth program).2.state } := by
  obtain ⟨r, t, h⟩ : ∃ r t, (program.evalProgram session.options
    (runBody session.options depth) session.root).runOn session.state = (r, t) := ⟨_, _, rfl⟩
  rw [evaluateWithin_of_runOn session h]

theorem Session.evaluateWithin_root (session : Session) (depth : Nat) (program : Block) :
    (session.evaluateWithin depth program).2.root = session.root := by
  rw [evaluateWithin_snd]

namespace Comparison

variable {K : Comparison}

/-- A new session corresponds to one that starts in any state. -/
theorem states_start (hwhole : K.whole ≤ 1) (options options' : Options) :
    K.States (Session.start options).state (Session.startIn K.base options').state where
  holds := State.Stores.initial.withScopes State.Stores.initial.bindings.addRoot
  scopes :=
    { whole_le := hwhole
      size := (Scopes.size_addRoot _).trans (Nat.add_comm _ _)
      outer := fun i => by
        have hle : K.base.scopes.size ≤ K.shift.scope i := Nat.le_add_left _ _
        have hleft : (Session.start options).state.scopes.outer? i = none :=
          (Scopes.outer?_addRoot _ i).trans (Scopes.outer?_of_size_le (Nat.zero_le i))
        rw [hleft]
        exact (Scopes.outer?_addRoot _ _).trans (Scopes.outer?_of_size_le hle)
      bindings := fun i => by
        have hle : K.base.scopes.size ≤ K.shift.scope i := Nat.le_add_left _ _
        have hleft : (Session.start options).state.scopes.bindings i = [] :=
          (Scopes.bindings_addRoot _ i).trans (Scopes.bindings_of_size_le (Nat.zero_le i))
        have hright : (Session.startIn K.base options').state.scopes.bindings
            (K.shift.scope i) = [] :=
          (Scopes.bindings_addRoot _ _).trans (Scopes.bindings_of_size_le hle)
        rw [hleft, hright]
        rfl
      found_outer := fun i _ => Scopes.outer?_addRoot _ i
      found_bindings := fun i _ => Scopes.bindings_addRoot _ i }
  properties_size := (Nat.zero_add _).symm
  properties i := Array.getElem?_eq_none (Nat.le_add_left _ _)
  found_properties _ _ := rfl
  nextIdent := (Nat.zero_add _).symm
  output := (String.append_empty).symm

end Comparison

/-- Evaluating an admitted program in corresponding sessions leaves corresponding states and gives
corresponding results, unless the first evaluation ends where the runs may part. -/
theorem Simulation.evaluateWithin {K : Comparison} {first second : Session}
    (S : Simulation K first.options second.options) (hstates : K.States first.state second.state)
    (hroot : second.root = K.shift.scope first.root) (depth : Nat) {program : Block}
    (hprogram : K.AdmitsBody program) :
    (∃ v, (first.evaluateWithin depth program).1 = .ok v ∧ K.Excused v) ∨
      K.States (first.evaluateWithin depth program).2.state
          (second.evaluateWithin depth program).2.state ∧
        (second.evaluateWithin depth program).1 =
          (first.evaluateWithin depth program).1.map (Value.rename K.shift) := by
  have h := S.agrees_evalProgram depth hprogram first.root first.state second.state hstates
  rw [← hroot] at h
  obtain ⟨r, s, hfirst⟩ : ∃ r s, (program.evalProgram first.options (runBody first.options depth)
    first.root).runOn first.state = (r, s) := ⟨_, _, rfl⟩
  obtain ⟨r', s', hsecond⟩ : ∃ r' s', (program.evalProgram second.options
    (runBody second.options depth) second.root).runOn second.state = (r', s') := ⟨_, _, rfl⟩
  rw [first.evaluateWithin_of_runOn hfirst, second.evaluateWithin_of_runOn hsecond]
  rw [hfirst, hsecond] at h
  rcases h with ⟨v, rfl, hv⟩ | ⟨hafter, hrel⟩
  · exact .inl ⟨v, rfl, hv⟩
  · cases hrel with
    | none => exact .inr ⟨hafter, rfl⟩
    | some hvalues => exact .inr ⟨hafter, congrArg Except.ok hvalues.2⟩

end Scripting
