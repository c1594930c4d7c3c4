import Mathlib
import Scripting.Proofs.Session.Simulation

/-!
# Lenient sessions

A lenient session accepts assignments to names that are not declared, where a strict one ends in an
error. Nothing takes such an error back: a body, a constructor and a program hand it on as their
result. So an evaluation that ends without an error under the strict policy never came to such an
assignment, and goes the same way under the lenient one.
-/

namespace Scripting

namespace Comparison

/-- Two runs from one state that may part once the first gives a runtime error. -/
def untilError : Comparison where
  base := .initial
  hidden _ := false
  whole := 0
  Admits _ := True
  AdmitsClass _ := True
  partsOnError := True

theorem simulation_untilError {left right : Options}
    (hresolution : left.methodResolution = right.methodResolution)
    (hstrict : left.assignment = .strict) : Simulation untilError left right where
  names _ _ _ _ := rfl
  this := rfl
  classes _ _ _ _ _ _ _ _ _ := trivial
  walks := .inl (congrArg (· == .chain) hresolution)
  strict := .inr ⟨beq_iff_eq.mpr hstrict, trivial⟩

theorem mapContents_untilError (t : Table Value) :
    t.mapContents (Value.rename untilError.shift) = t :=
  Table.mapContents_id Value.rename_id t

theorem holds_untilError (v : Value) : untilError.Holds v :=
  holds_of_admits (fun _ => trivial) (fun _ => trivial) v

/-- A state corresponds to itself. -/
theorem states_untilError (s : State) : untilError.States s s where
  holds := ⟨fun _ _ _ => holds_untilError _, fun _ _ _ _ => holds_untilError _⟩
  scopes :=
    { whole_le := Nat.zero_le _
      size := rfl
      outer := fun _ => Option.map_id'.symm
      bindings := fun i => by
        rw [mapContents_untilError]
        rfl
      found_outer := fun i hi => absurd hi (Nat.not_lt_zero i)
      found_bindings := fun i hi => absurd hi (Nat.not_lt_zero i) }
  properties_size := rfl
  properties i := by
    rw [funext mapContents_untilError, Option.map_id']
    rfl
  found_properties i hi := absurd hi (Nat.not_lt_zero i)
  nextIdent := rfl
  output := String.empty_append.symm

/-- Only equal states correspond. -/
theorem eq_of_states_untilError {s t : State} (h : untilError.States s t) : t = s := by
  have hscopes : t.scopes = s.scopes := by
    refine Scopes.ext_bindings h.scopes.size (fun i => ?_) fun i => ?_
    · have hbindings := h.scopes.bindings_of_counts (i := i) fun _ => counts_of_visible rfl i
      rwa [mapContents_untilError] at hbindings
    · exact (h.scopes.outer i).trans Option.map_id'
  have hproperties : t.properties = s.properties := by
    refine Array.ext_getElem? fun i => ?_
    have hproperty := h.properties i
    rw [funext mapContents_untilError, Option.map_id'] at hproperty
    exact hproperty
  have houtput : t.output = s.output := h.output.trans String.empty_append
  obtain ⟨scopes, properties, nextIdent, output⟩ := s
  obtain ⟨scopes', properties', nextIdent', output'⟩ := t
  have hnext : nextIdent' = nextIdent := h.nextIdent
  simp only at hscopes hproperties houtput
  rw [hscopes, hproperties, hnext, houtput]

end Comparison

/-- A session that goes on with lenient assignments. -/
def Session.lenient (session : Session) : Session :=
  { session with options := { session.options with assignment := .lenient } }

/-- Lenient assignments change nothing about an evaluation that ends without an error under strict
ones: it has the same result, prints the same and leaves the same scopes and objects. -/
theorem lenient_extends_strict {session after : Session} {depth : Nat} {program : Block}
    {v : Value} (hstrict : session.options.assignment = .strict)
    (h : session.evaluateWithin depth program = (.ok v, after)) (hv : v.isError = false) :
    session.lenient.evaluateWithin depth program = (.ok v, after.lenient) := by
  have S : Simulation .untilError session.options session.lenient.options :=
    Comparison.simulation_untilError rfl hstrict
  have hprogram : Comparison.untilError.AdmitsBody program := fun _ _ => trivial
  have hboth := S.evaluateWithin (Comparison.states_untilError session.state) rfl depth hprogram
  rw [h] at hboth
  rcases hboth with ⟨w, hw, -, herror⟩ | ⟨hstates, hresult⟩
  · cases hw
    rw [hv] at herror
    cases herror
  · have hvalue : (session.lenient.evaluateWithin depth program).1 = .ok v :=
      hresult.trans (congrArg Except.ok v.rename_id)
    have hafter : after = { session with state := after.state } := by
      have hsnd := session.evaluateWithin_snd depth program
      rwa [h] at hsnd
    refine Prod.ext hvalue ?_
    change (session.lenient.evaluateWithin depth program).2 = after.lenient
    rw [Session.evaluateWithin_snd, Comparison.eq_of_states_untilError hstates, hafter]
    rfl

/-- A program that rebinds a name of the session from inside a function. -/
def rebindingProgram : Block :=
  [.letIn "x" (.int 1 "1"),
    .letIn "set" (.function (.mk ["y"] [.expr (.assign (.ident "x") (.ident "y"))])),
    .expr (.call (.ident "set") [.int 5 "5"]),
    .expr (.ident "x")]

theorem lenient_extends_strict_of_rebinding :
    (Session.start {}).options.assignment = .strict ∧
      ((Session.start {}).evaluateWithin 1 rebindingProgram).1 = .ok (.integer 5) ∧
      ((Session.start {}).lenient.evaluateWithin 1 rebindingProgram).1 = .ok (.integer 5) := by
  have hstrict : (Session.start {}).options.assignment = .strict := rfl
  have hresult : ((Session.start {}).evaluateWithin 1 rebindingProgram).1 = .ok (.integer 5) := by
    cbv
  exact ⟨hstrict, hresult,
    congrArg Prod.fst (lenient_extends_strict hstrict (Prod.ext hresult rfl) rfl)⟩

end Scripting
