import Scripting.Proofs.Session.Simulation

/-!
# Isolation of sessions

A session that starts in a state left by others does not touch what it finds, and goes as the same
session would have gone with nothing there before: it prints the same, and what it makes is the same
but for the numbers of scopes and objects and the other identities, which are those of the
undisturbed session shifted by what was there. Printed forms do not show these numbers.
-/

namespace Scripting

/-- The state `u` has everything of `s`, as it was there, and behind it everything of `t` with its
numbers shifted. -/
structure State.Joins (s t u : State) : Prop where
  scopes_size : u.scopes.size = t.scopes.size + s.scopes.size
  found_outer : ∀ i < s.scopes.size, u.scopes.outer? i = s.scopes.outer? i
  found_bindings : ∀ i < s.scopes.size, u.scopes.bindings i = s.scopes.bindings i
  outer : ∀ i, u.scopes.outer? (i + s.scopes.size) =
    (t.scopes.outer? i).map (· + s.scopes.size)
  bindings : ∀ i, u.scopes.bindings (i + s.scopes.size) =
    (t.scopes.bindings i).mapContents (Value.rename s.shift)
  properties_size : u.properties.size = t.properties.size + s.properties.size
  found_properties : ∀ i < s.properties.size, u.properties[i]? = s.properties[i]?
  properties : ∀ i, u.properties[i + s.properties.size]? =
    t.properties[i]?.map (Table.mapContents (Value.rename s.shift))
  output : u.output = s.output ++ t.output

namespace Comparison

/-- A run and the same run behind what a state holds: everything counts and is admitted. -/
def behind (s : State) : Comparison where
  base := s
  hidden _ := false
  whole := 0
  Admits _ := True
  AdmitsClass _ := True
  partsOnError := False

theorem simulation_behind (s : State) (options : Options) :
    Simulation (behind s) options options where
  names _ _ _ _ := rfl
  this := rfl
  classes _ _ _ _ _ _ _ _ _ := trivial
  walks := .inl rfl
  strict := .inl rfl

theorem joins_of_states {s t u : State} (h : (behind s).States t u) : s.Joins t u where
  scopes_size := h.scopes.size
  found_outer := h.scopes.found_outer
  found_bindings := h.scopes.found_bindings
  outer := h.scopes.outer
  bindings i := h.scopes.bindings_of_counts fun _ => counts_of_visible rfl i
  properties_size := h.properties_size
  found_properties := h.found_properties
  properties := h.properties
  output := h.output

end Comparison

/-- Sorting looks at names only. -/
theorem Table.sorted_mapContents {α β : Type} (f : α → β) (t : Table α) :
    (t.mapContents f).sorted = t.sorted.mapContents f :=
  (List.map_mergeSort (f := fun row : String × α => (row.1, f row.2)) fun _ _ _ _ => rfl).symm

namespace Session

/-- How an evaluation in a session that starts in `s` relates to one with nothing there before: it
leaves what was there and does the same behind it, with the same result and the same bindings. -/
structure Repeats (s : State) (pristine later : Except Failure Value × Session) : Prop where
  state : s.Joins pristine.2.state later.2.state
  result : later.1 = pristine.1.map (Value.rename s.shift)
  printed : later.1.map Value.inspect = pristine.1.map Value.inspect
  bindings : later.2.bindings = pristine.2.bindings.mapContents (Value.rename s.shift)

theorem repeats_evaluateWithin (s : State) (options : Options) (depth : Nat) (program : Block) :
    Repeats s ((start options).evaluateWithin depth program)
      ((startIn s options).evaluateWithin depth program) := by
  have hstates : (Comparison.behind s).States (start options).state (startIn s options).state :=
    Comparison.states_start (Nat.zero_le 1) options options
  have hroot : (startIn s options).root = s.shift.scope (start options).root :=
    (Nat.zero_add _).symm
  have hprogram : (Comparison.behind s).AdmitsBody program := fun _ _ => trivial
  rcases (Comparison.simulation_behind s options).evaluateWithin hstates hroot depth
    hprogram with ⟨v, -, hparts, -⟩ | ⟨hafter, hresult⟩
  · exact hparts.elim
  · have hjoins := Comparison.joins_of_states hafter
    refine ⟨hjoins, hresult, ?_, ?_⟩
    · rw [hresult]
      cases ((start options).evaluateWithin depth program).1 with
      | error failure => rfl
      | ok v => exact congrArg Except.ok (Value.inspect_rename s.shift v)
    · unfold Session.bindings
      rw [evaluateWithin_root, evaluateWithin_root, hroot, ← Table.sorted_mapContents]
      exact congrArg Table.sorted (hjoins.bindings (start options).root)

end Session

/-- Evaluation in a new root scope does not depend on what was evaluated before. Whatever state a
process is in, evaluating a program in a new root scope leaves every scope and every object that was
there, and prints, gives and binds what it does in a process with nothing there before, up to the
numbers of scopes, objects and other identities. So does evaluating the program once more in another
new root scope, and the two results have the same printed form. -/
theorem evaluations_are_isolated (s : State) (options : Options) (depth : Nat) (program : Block) :
    let pristine := (Session.start options).evaluateWithin depth program
    let later := (Session.startIn s options).evaluateWithin depth program
    let again := (Session.startIn later.2.state options).evaluateWithin depth program
    Session.Repeats s pristine later ∧ Session.Repeats later.2.state pristine again ∧
      again.1.map Value.inspect = later.1.map Value.inspect := by
  intro pristine later again
  have hlater : Session.Repeats s pristine later :=
    Session.repeats_evaluateWithin s options depth program
  have hagain : Session.Repeats later.2.state pristine again :=
    Session.repeats_evaluateWithin later.2.state options depth program
  exact ⟨hlater, hagain, hagain.printed.trans hlater.printed.symm⟩

end Scripting
