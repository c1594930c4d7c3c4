import Scripting.Proofs.Run.FirstSignal

/-!
# How the evaluation of a node ends

The evaluation of a node ends in one of two ways. Either all its parts give ordinary values, and its
last step says what it gives; or one of them, behind others that do, gives a signal or gives up, and
then the node ends as this part does.
-/

namespace Scripting

open Eval

namespace Part

variable {options : Options} {run : RunBody} {scope : Nat} {s t u : State} {vs : List Value}

/-- A result that nothing goes on behind: none at all, or a signal. -/
def Stops (r : Option Value) : Prop :=
  ∀ v ∈ r, v.isSignal = true

/-- What does not stop gives an ordinary value. -/
theorem exists_of_not_stops {x : Eval Value} (h : ¬Stops (x.runOn s).1) :
    ∃ v t, x.runOn s = (some v, t) ∧ v.isSignal = false := by
  obtain ⟨r, t, hr⟩ : ∃ r t, x.runOn s = (r, t) := ⟨_, _, rfl⟩
  rw [hr] at h
  cases r with
  | none => exact absurd (fun _ hv => nomatch hv) h
  | some v =>
      refine ⟨v, t, hr, Bool.eq_false_iff.mpr fun hv => h fun w hw => ?_⟩
      rwa [← Option.mem_some_iff.mp hw]

/-! ### Parts one after another -/

theorem Gives.length_eq {parts : List Part} (h : Gives options run scope parts s vs t) :
    vs.length = parts.length := by
  induction h with
  | nil => rfl
  | cons _ _ _ ih => exact congrArg Nat.succ ih

theorem Gives.runOn_evalAll_of_all {parts : List Part}
    (h : Gives options run scope parts s vs t) :
    (evalAll options run scope parts).runOn s = (some (.ok vs), t) := by
  induction h with
  | nil => rfl
  | cons hvalue hv _ ih =>
      rw [evalAll, runOn_bind_of_some hvalue, if_neg (Bool.eq_false_iff.mp hv),
        runOn_bind_of_some ih]
      rfl

/-- Behind parts that give ordinary values, giving up ends the gathering. -/
theorem Gives.runOn_evalAll_of_none {earlier : List Part} {part : Part}
    (h : Gives options run scope earlier s vs t)
    (hnone : (part.eval options run scope).runOn t = (none, u)) (later : List Part) :
    (evalAll options run scope (earlier ++ part :: later)).runOn s = (none, u) := by
  induction h with
  | nil =>
      rw [List.nil_append, evalAll, runOn_bind, hnone]
  | cons hvalue hw _ ih =>
      rw [List.cons_append, evalAll, runOn_bind_of_some hvalue, if_neg (Bool.eq_false_iff.mp hw),
        runOn_bind, ih hnone]

/-- Parts evaluated one after another all give ordinary values, or one of them is the first that
does not. -/
theorem gives_or_stops (parts : List Part) (s : State) :
    (∃ vs t, Gives options run scope parts s vs t) ∨
      ∃ earlier part later vs t, parts = earlier ++ part :: later ∧
        Gives options run scope earlier s vs t ∧
        Stops ((part.eval options run scope).runOn t).1 := by
  induction parts generalizing s with
  | nil => exact .inl ⟨[], s, .nil s⟩
  | cons part rest ih =>
      by_cases hstops : Stops ((part.eval options run scope).runOn s).1
      · exact .inr ⟨[], part, rest, [], s, rfl, .nil s, hstops⟩
      · obtain ⟨v, t, hvalue, hv⟩ := exists_of_not_stops hstops
        rcases ih t with ⟨vs, u, hgives⟩ | ⟨earlier, part', later, vs, u, rfl, hgives, hlast⟩
        · exact .inl ⟨v :: vs, u, .cons hvalue hv hgives⟩
        · exact .inr ⟨part :: earlier, part', later, v :: vs, u, rfl,
            .cons hvalue hv hgives, hlast⟩

/-! ### One node -/

variable {node part : Part} {k : Nat}

/-- A node whose parts all give ordinary values ends by its last step. -/
theorem Gives.runOn_eval (h : Gives options run scope (node.parts vs) s vs t) :
    (node.eval options run scope).runOn s = (node.finish options run scope vs).runOn t := by
  rw [eval_eq]
  cases vs with
  | nil =>
      rw [evalInOrder]
      cases hparts : node.parts [] with
      | nil =>
          rw [hparts] at h
          cases h
          rfl
      | cons first rest =>
          rw [hparts] at h
          cases h
  | cons v vs =>
      rw [parts_cons] at h
      cases hparts : node.parts [v] with
      | nil =>
          rw [hparts] at h
          cases h
      | cons first rest =>
          have hfirst : (node.parts []).head? = some first := by
            rw [← head?_parts node v, hparts, List.head?_cons]
          rw [hparts] at h
          cases h with
          | cons hvalue hv hrest =>
              rw [evalInOrder_of_head hfirst, runOn_onValue, hvalue]
              dsimp only
              rw [if_neg (Bool.eq_false_iff.mp hv), hparts, List.tail_cons, onGathered,
                runOn_bind_of_some hrest.runOn_evalAll_of_all]

/-- A node gives up when one of its parts does. -/
theorem Reaches.runOn_eval_of_none (h : node.Reaches options run scope s k part t)
    (hnone : (part.eval options run scope).runOn t = (none, u)) :
    (node.eval options run scope).runOn s = (none, u) := by
  rw [eval_eq]
  rcases h.head with ⟨hfirst, -, rfl⟩ |
    ⟨first, earlier, later, w, ws, s', hfirst, hparts, -, hvalue, hw, hgives⟩
  · rw [evalInOrder_of_head hfirst, runOn_onValue, hnone]
  · rw [evalInOrder_of_head hfirst, runOn_onValue, hvalue]
    dsimp only
    rw [if_neg (Bool.eq_false_iff.mp hw), hparts, List.tail_cons, onGathered, runOn_bind,
      hgives.runOn_evalAll_of_none hnone later]

/-- Where a part stops, the node ends as the part does. -/
theorem Reaches.runOn_eval_of_stops (h : node.Reaches options run scope s k part t)
    (hstops : Stops ((part.eval options run scope).runOn t).1) :
    (node.eval options run scope).runOn s = (part.eval options run scope).runOn t := by
  obtain ⟨r, u, hr⟩ : ∃ r u, (part.eval options run scope).runOn t = (r, u) := ⟨_, _, rfl⟩
  rw [hr] at hstops ⊢
  cases r with
  | none => exact h.runOn_eval_of_none hr
  | some v => exact h.runOn_eval hr (hstops v rfl)

/-- The parts of a node all give ordinary values, or it comes to one that stops. -/
theorem gives_or_reaches (node : Part) (s : State) :
    (∃ vs t, Gives options run scope (node.parts vs) s vs t) ∨
      ∃ k part t, node.Reaches options run scope s k part t ∧
        Stops ((part.eval options run scope).runOn t).1 := by
  cases hparts : node.parts [] with
  | nil => exact .inl ⟨[], s, hparts ▸ .nil s⟩
  | cons first rest =>
      by_cases hstops : Stops ((first.eval options run scope).runOn s).1
      · exact .inr ⟨0, first, s, ⟨[], rest, [], hparts, rfl, .nil s⟩, hstops⟩
      · obtain ⟨v, t, hvalue, hv⟩ := exists_of_not_stops hstops
        obtain ⟨others, hothers⟩ := exists_parts_eq_cons hparts v
        rcases gives_or_stops others t with ⟨vs, u, hgives⟩ |
          ⟨earlier, part, later, vs, u, rfl, hgives, hlast⟩
        · refine .inl ⟨v :: vs, u, ?_⟩
          rw [parts_cons, hothers]
          exact .cons hvalue hv hgives
        · refine .inr ⟨earlier.length + 1, part, u, ⟨first :: earlier, later, v :: vs, ?_, rfl,
            .cons hvalue hv hgives⟩, hlast⟩
          rw [parts_cons, hothers, List.cons_append]

end Part

end Scripting
