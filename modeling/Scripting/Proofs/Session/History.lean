import Mathlib.Logic.Relation
import Scripting.Proofs.Session.Simulation

/-!
# The history of a session

Texts run in a session one after another, each on the state that the one before it left. A state
that comes up in the course of them, be it in the middle of a run, is visited by the session.
-/

namespace Scripting

namespace Session

/-- Runs a text with the given limit on nested bodies. -/
def runWithin (depth : Nat) (session : Session) (text : String) : Except Failure Value × Session :=
  match (Reading.ofText text).program? with
  | .error failure => (.error failure, session)
  | .ok program => session.evaluateWithin depth program

theorem run_eq_runWithin (session : Session) (text : String) :
    session.run text = session.runWithin session.options.depthLimit text := rfl

/-- The session after some texts have run in it. -/
def runAll (depth : Nat) (session : Session) (texts : List String) : Session :=
  texts.foldl (fun session text => (session.runWithin depth text).2) session

/-- The texts that run in a session one after another, with their results. -/
def history (depth : Nat) (session : Session) : List String → List (String × Except Failure Value)
  | [] => []
  | text :: rest =>
      (text, (session.runWithin depth text).1) ::
        history depth (session.runWithin depth text).2 rest

/-- The runs of some texts in a session lead from a state to another. A run that is broken off
leaves the session as it was at that moment, and each run may have a limit of its own on how deep
bodies nest. -/
def Leads (session : Session) : State → State → Prop :=
  Relation.ReflTransGen fun s t => ∃ text program depth,
    (Reading.ofText text).program? = .ok program ∧
      (Block.evalProgram session.options (runBody session.options depth) session.root
        program).Passes s t

/-- The session comes to a state in the course of some texts. -/
def Visits (session : Session) (s : State) : Prop :=
  session.Leads session.state s

theorem runWithin_of_read {text : String} {program : Block}
    (hread : (Reading.ofText text).program? = .ok program) (depth : Nat) (session : Session) :
    session.runWithin depth text = session.evaluateWithin depth program := by
  rw [runWithin, hread]

/-- Running a text that is read without faults is evaluating its program. -/
theorem run_of_read {text : String} {program : Block}
    (hread : (Reading.ofText text).program? = .ok program) (session : Session) :
    session.run text = session.evaluateWithin session.options.depthLimit program := by
  rw [run_eq_runWithin, runWithin_of_read hread]

/-- A text that cannot be read changes nothing. -/
theorem runWithin_of_not_read {text : String} {failure : Failure}
    (hread : (Reading.ofText text).program? = .error failure) (depth : Nat) (session : Session) :
    session.runWithin depth text = (.error failure, session) := by
  rw [runWithin, hread]

/-- A run with a result evaluates its program to that. -/
theorem runOn_of_read {session : Session} {depth : Nat} {text : String} {program : Block}
    {v : Value} (hread : (Reading.ofText text).program? = .ok program)
    (h : (session.runWithin depth text).1 = .ok v) :
    ∃ t, (Block.evalProgram session.options (runBody session.options depth)
      session.root program).runOn session.state = (some v, t) := by
  obtain ⟨r, t, hrun⟩ : ∃ r t, (Block.evalProgram session.options
    (runBody session.options depth) session.root program).runOn session.state = (r, t) :=
    ⟨_, _, rfl⟩
  rw [runWithin_of_read hread, evaluateWithin_of_runOn session hrun] at h
  cases r with
  | none => cases h
  | some w =>
      cases h
      exact ⟨t, hrun⟩

/-- A run changes nothing of a session but its state. -/
theorem runWithin_snd (depth : Nat) (session : Session) (text : String) :
    (session.runWithin depth text).2 =
      { session with state := (session.runWithin depth text).2.state } := by
  cases hread : (Reading.ofText text).program? with
  | error failure => rw [runWithin_of_not_read hread]
  | ok program => rw [runWithin_of_read hread, evaluateWithin_snd]

theorem leads_runWithin (depth : Nat) (session : Session) (text : String) :
    session.Leads session.state (session.runWithin depth text).2.state := by
  cases hread : (Reading.ofText text).program? with
  | error failure =>
      rw [runWithin_of_not_read hread]
      exact .refl
  | ok program =>
      obtain ⟨r, t, hrun⟩ : ∃ r t, (Block.evalProgram session.options
        (runBody session.options depth) session.root program).runOn session.state = (r, t) :=
        ⟨_, _, rfl⟩
      rw [runWithin_of_read hread, evaluateWithin_of_runOn session hrun]
      exact .single ⟨text, program, depth, hread, Eval.passes_of_runOn hrun⟩

/-- A session visits the states between its texts. -/
theorem visits_runAll (depth : Nat) (session : Session) (texts : List String) :
    session.Visits (session.runAll depth texts).state := by
  induction texts generalizing session with
  | nil => exact .refl
  | cons text texts ih =>
      have hrest : (session.runWithin depth text).2.Leads (session.runWithin depth text).2.state
          ((session.runWithin depth text).2.runAll depth texts).state :=
        ih (session.runWithin depth text).2
      rw [runWithin_snd] at hrest
      refine (session.leads_runWithin depth text).trans ?_
      rw [runAll, List.foldl_cons, runWithin_snd]
      exact hrest

/-- What holds at the start and is kept along every program holds in every state visited. -/
theorem Visits.of_kept {session : Session} {I : State → Prop} (hstart : I session.state)
    (hkept : ∀ (depth : Nat) (program : Block) (s t : State), I s →
      (Block.evalProgram session.options (runBody session.options depth) session.root
        program).Passes s t → I t) {s : State} (h : session.Visits s) : I s := by
  have hall : ∀ t, session.Leads session.state t → I t := by
    intro t ht
    induction ht with
    | refl => exact hstart
    | tail _ hstep ih =>
        obtain ⟨-, program, depth, -, hpasses⟩ := hstep
        exact hkept depth program _ _ ih hpasses
  exact hall s h

end Session

end Scripting
