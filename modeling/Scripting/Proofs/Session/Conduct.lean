import Scripting.Proofs.Run.Abiding
import Scripting.Proofs.Session.History

/-!
# Sessions whose scripts keep to a conduct

The trees that texts are read as keep to what is asked of nodes, and a new session stores nothing.
From that and from the evaluations that a run starts follows what holds of all states that a session
visits and of all evaluations that it comes to.
-/

namespace Scripting

namespace Session

/-- The runs of some texts lead from a state to another, and the evaluations of their programs
satisfy `A`. -/
def LeadsAlong (A : Evaluation → Prop) (session : Session) : State → State → Prop :=
  Relation.ReflTransGen fun s t => ∃ text program depth,
    (Reading.ofText text).program? = .ok program ∧
      A ⟨depth, .block program, session.root, s⟩ ∧
        (Block.evalProgram session.options (runBody session.options depth) session.root
          program).Passes s t

/-- In the course of some texts the session comes to an evaluation: the run of a text starts it,
itself or through others. -/
def ComesTo (session : Session) (e : Evaluation) : Prop :=
  ∃ s text program depth, session.Visits s ∧ (Reading.ofText text).program? = .ok program ∧
    Relation.ReflTransGen (Evaluation.Starts session.options)
      ⟨depth, .block program, session.root, s⟩ e

/-- The session comes to an evaluation, and all evaluations before it satisfy `P`: those of the
texts that ran before, and those that came before it in the run of its own text. -/
def ComesAlong (P : Evaluation → Prop) (session : Session) (e : Evaluation) : Prop :=
  ∃ s text program depth, session.LeadsAlong P session.state s ∧
    (Reading.ofText text).program? = .ok program ∧
      Relation.ReflTransGen (Evaluation.StartsAfter session.options P)
        ⟨depth, .block program, session.root, s⟩ e

variable {session : Session} {s t : State}

theorem Leads.along {A : Evaluation → Prop} (hA : ∀ e, A e) (h : session.Leads s t) :
    session.LeadsAlong A s t := by
  induction h with
  | refl => exact .refl
  | tail _ hstep ih =>
      obtain ⟨text, program, depth, hread, hpasses⟩ := hstep
      exact ih.tail ⟨text, program, depth, hread, hA _, hpasses⟩

/-- A session in which nothing has run binds nothing anywhere. -/
theorem bindings_start (options : Options) (k : Nat) :
    (start options).state.scopes.bindings k = [] :=
  (Scopes.bindings_addRoot _ k).trans (Scopes.bindings_of_size_le (Nat.zero_le k))

theorem ComesTo.started {e inner : Evaluation} (h : session.ComesTo e)
    (hstarted : Relation.ReflTransGen (Evaluation.Starts session.options) e inner) :
    session.ComesTo inner := by
  obtain ⟨s, text, program, depth, hs, hread, he⟩ := h
  exact ⟨s, text, program, depth, hs, hread, he.trans hstarted⟩

theorem LeadsAlong.leads {A : Evaluation → Prop} (h : session.LeadsAlong A s t) :
    session.Leads s t := by
  induction h with
  | refl => exact .refl
  | tail _ hstep ih =>
      obtain ⟨text, program, depth, hread, -, hpasses⟩ := hstep
      exact ih.tail ⟨text, program, depth, hread, hpasses⟩

theorem ComesAlong.comesTo {P : Evaluation → Prop} {e : Evaluation}
    (h : session.ComesAlong P e) : session.ComesTo e := by
  obtain ⟨s, text, program, depth, hs, hread, he⟩ := h
  exact ⟨s, text, program, depth, hs.leads, hread,
    Relation.ReflTransGen.mono (fun _ _ h => h.starts) _ _ he⟩

theorem ComesAlong.startsAfter {P : Evaluation → Prop} {e inner : Evaluation}
    (h : session.ComesAlong P e) (hstarts : e.StartsAfter session.options P inner) :
    session.ComesAlong P inner := by
  obtain ⟨s, text, program, depth, hs, hread, he⟩ := h
  exact ⟨s, text, program, depth, hs, hread, he.tail hstarts⟩

end Session

namespace Conduct

variable {κ : Conduct} {session : Session} {s t : State}

variable (κ) in
/-- The trees of all texts without faults keep to what is asked of nodes. -/
def Reads : Prop :=
  ∀ text program, (Reading.ofText text).program? = .ok program → κ.node (.block program)

theorem tidy_start (options : Options) : κ.Tidy (Session.start options).state where
  bindings k row hrow := by
    rw [Session.bindings_start] at hrow
    cases hrow
  properties i h := absurd h (Nat.not_lt_zero i)

/-- The run of a text leads to tidy states only. -/
theorem leads_evalProgram {options : Options} {depth scope : Nat} {program : Block}
    (hprogram : κ.Admitted options ⟨depth, .block program, scope, s⟩) :
    (Block.evalProgram options (runBody options depth) scope program).Follows κ.Leads κ.Safe s :=
  hprogram.follows.bind course fun _ _ ht hv => Eval.Follows.pure (course.stay ht)
    (safe_unwrapReturn hv)

theorem leads_of_leadsAlong {A : Evaluation → Prop} (hreads : κ.Reads)
    (hA : ∀ e, A e → κ.Obeyed session.options e)
    (hs : κ.Tidy s) (h : session.LeadsAlong A s t) : κ.Leads s t := by
  induction h with
  | refl => exact hs.stay
  | tail _ hstep ih =>
      obtain ⟨text, program, depth, hread, hprogram, hpasses⟩ := hstep
      have hadmitted : κ.Admitted session.options ⟨depth, .block program, session.root, _⟩ :=
        ⟨⟨ih.tidy, hreads text program hread⟩, hA _ hprogram⟩
      exact course.trans ih ((leads_evalProgram hadmitted).passes hpasses)

/-- An evaluation is ready if what came before it is obeyed. -/
theorem ready_of_comesAlong {P : Evaluation → Prop} (hreads : κ.Reads)
    (hP : ∀ e, P e → κ.Obeyed session.options e) (hsession : κ.Tidy session.state)
    {e : Evaluation} (h : session.ComesAlong P e) : κ.Ready e := by
  obtain ⟨s, text, program, depth, hs, hread, he⟩ := h
  have hprogram : κ.Ready ⟨depth, .block program, session.root, s⟩ :=
    ⟨(leads_of_leadsAlong hreads hP hsession hs).tidy, hreads text program hread⟩
  exact (hprogram.startedAfter hP he).1

variable (κ) in
/-- Scripts may measure and assign as they like. -/
structure Lenient : Prop where
  measured : ∀ v, κ.measured v
  free : ∀ o name, κ.free o name

theorem Lenient.obeyed (h : κ.Lenient) (options : Options) (e : Evaluation) :
    κ.Obeyed options e :=
  ⟨fun _ _ v _ _ => h.measured v, fun _ _ o name _ => h.free o name⟩

theorem Lenient.leads (h : κ.Lenient) (hreads : κ.Reads) (hs : κ.Tidy session.state)
    (hvisits : session.Visits s) : κ.Leads session.state s :=
  leads_of_leadsAlong (A := fun _ => True) hreads (fun e _ => h.obeyed _ e) hs
    (hvisits.along fun _ => trivial)

/-- All evaluations that a session comes to are admitted then. -/
theorem Lenient.admitted (h : κ.Lenient) (hreads : κ.Reads) (hsession : κ.Tidy session.state)
    {e : Evaluation} (he : session.ComesTo e) : κ.Admitted session.options e := by
  obtain ⟨s, text, program, depth, hs, hread, he⟩ := he
  have hprogram : κ.Admitted session.options ⟨depth, .block program, session.root, s⟩ :=
    ⟨⟨(h.leads hreads hsession hs).tidy, hreads text program hread⟩, h.obeyed _ _⟩
  exact (hprogram.started he).1

end Conduct

end Scripting
