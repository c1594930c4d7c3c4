import Mathlib
import Scripting.Proofs.Reading.Join
import Scripting.Proofs.Run.FirstSignal
import Scripting.Proofs.Run.Frame
import Scripting.Proofs.Run.Outcome
import Scripting.Proofs.Session.History
import Scripting.Proofs.Session.WellMade

/-!
# Texts run at once and one by one

Two texts with a semicolon on a line between them run as they do one after the other. If all
statements of the first give ordinary values, the statements of the second go on where it ended; if
one of them gives a `return` or an error, that ends the run, and nothing of the second text is
evaluated. Texts that cannot be read leave no trace in a session.
-/

namespace Scripting

open Eval

/-! ### Blocks one after another -/

section

variable {options : Options} {run : RunBody} {scope : Nat}

/-- The statements of two blocks one after the other. -/
theorem Block.evalFrom_append (first second : Block) {last : Value}
    (hlast : last.isSignal = false) :
    Block.evalFrom options run scope last (first ++ second) =
      (Block.evalFrom options run scope last first).onValue fun v =>
        Block.evalFrom options run scope v second := by
  induction first generalizing last with
  | nil => rw [List.nil_append, Block.evalFrom, pure_onValue hlast]
  | cons s first ih =>
      rw [List.cons_append, Block.evalFrom, Block.evalFrom, onValue_onValue]
      exact onValue_congr fun v hv => ih hv

/-- What a block gives that is not empty does not depend on what was given before. -/
theorem Block.evalFrom_of_ne_nil {b : Block} (hb : b ≠ []) (last : Value) :
    Block.evalFrom options run scope last b = Block.eval options run scope b := by
  cases b with
  | nil => exact absurd rfl hb
  | cons s rest => rw [Block.eval, Block.evalFrom, Block.evalFrom]

namespace Part

variable {parts : List Part} {s t : State} {vs : List Value}

theorem Gives.isSignal_last (h : Gives options run scope parts s vs t) (last : Value)
    (hlast : last.isSignal = false) : (vs.getLast?.getD last).isSignal = false := by
  induction h generalizing last with
  | nil => exact hlast
  | cons _ hv _ ih =>
      rw [List.getLast?_cons, Option.getD_some]
      exact ih _ hv

/-- A block whose statements all give ordinary values gives the last of them. -/
theorem Gives.runOn_block {b : Block} (h : Gives options run scope (b.map stmt) s vs t) :
    (Block.eval options run scope b).runOn s = (some (vs.getLast?.getD .null), t) := by
  rw [Block.eval, evalFrom_eq]
  exact runOn_bind_of_some h.runOn_evalAll_of_all

/-- A part that a block comes to is one that it comes to with more statements behind it. -/
theorem Reaches.append {first : Block} {k : Nat} {part : Part}
    (h : (block first).Reaches options run scope s k part t) (second : Block) :
    (block (first ++ second)).Reaches options run scope s k part t ∧ k < first.length := by
  obtain ⟨earlier, later, vs, hparts, hk, hgives⟩ := h
  have hstmts : first.map stmt = earlier ++ part :: later := hparts
  refine ⟨⟨earlier, later ++ second.map stmt, vs, ?_, hk, hgives⟩, ?_⟩
  · rw [parts, List.map_append, hstmts, List.append_assoc, List.cons_append]
  · have hlength := congrArg List.length hstmts
    rw [List.length_map, List.length_append, List.length_cons] at hlength
    omega

/-- The statements of a block all give ordinary values, or one gives the first signal. -/
theorem block_gives_or_signal {b : Block} {v : Value}
    (h : (Block.eval options run scope b).runOn s = (some v, t)) :
    (∃ vs, Gives options run scope (b.map stmt) s vs t) ∨
      ∃ k part t', (block b).Reaches options run scope s k part t' ∧
        (part.eval options run scope).runOn t' = (some v, t) ∧ v.isSignal = true := by
  have hblock : ((block b).eval options run scope).runOn s = (some v, t) := h
  rcases gives_or_reaches (block b) s with ⟨vs, u, hgives⟩ | ⟨k, part, u, hreaches, hstops⟩
  · have hlast : (pure (vs.getLast?.getD .null) : Eval Value).runOn u = (some v, t) :=
      hgives.runOn_eval.symm.trans hblock
    cases hlast
    exact .inl ⟨vs, hgives⟩
  · rw [hreaches.runOn_eval_of_stops hstops] at hblock
    rw [hblock] at hstops
    exact .inr ⟨k, part, u, hreaches, hblock, hstops v rfl⟩

end Part

end

/-! ### Texts one after another -/

theorem Reading.ofText_of_program? {text : String} {program : Block}
    (h : (ofText text).program? = .ok program) : ofText text = ⟨program, []⟩ := by
  obtain ⟨herrors, hprogram⟩ := program?_eq_ok h
  rw [← herrors, ← hprogram]

theorem Reading.program?_join {a b : String} {first second : Block}
    (ha : (ofText a).program? = .ok first) (hb : (ofText b).program? = .ok second)
    (hopen : endsOpen a.toList = false) :
    (ofText (a ++ "\n;\n" ++ b)).program? = .ok (first ++ second) := by
  rw [ofText_join (ofText_of_program? ha) (ofText_of_program? hb) hopen]
  rfl

namespace Session

variable {session : Session} {depth : Nat}

/-- A program in a session is evaluated as a block, but for a `return`. -/
theorem evaluateWithin_eq (depth : Nat) (session : Session) (program : Block) :
    session.evaluateWithin depth program =
      match (Block.eval session.options (runBody session.options depth) session.root
        program).runOn session.state with
      | (some v, t) => (.ok v.unwrapReturn, { session with state := t })
      | (none, t) => (.error .tooDeep, { session with state := t }) := by
  obtain ⟨r, t, h⟩ : ∃ r t, (Block.eval session.options (runBody session.options depth)
    session.root program).runOn session.state = (r, t) := ⟨_, _, rfl⟩
  have hprogram : (Block.evalProgram session.options (runBody session.options depth) session.root
      program).runOn session.state = (r.map Value.unwrapReturn, t) := by
    rw [Block.evalProgram, runOn_bind, h]
    cases r <;> rfl
  rw [evaluateWithin_of_runOn session hprogram, h]
  cases r <;> rfl

/-- What a run prints comes behind what has been printed. -/
theorem exists_printed (depth : Nat) (session : Session) (text : String) :
    ∃ printed, (session.runWithin depth text).2.state.output =
      session.state.output ++ printed := by
  cases hread : (Reading.ofText text).program? with
  | error failure =>
      rw [runWithin_of_not_read hread]
      exact ⟨"", String.append_empty.symm⟩
  | ok program =>
      obtain ⟨r, t, hrun⟩ : ∃ r t, (Block.evalProgram session.options
        (runBody session.options depth) session.root program).runOn session.state = (r, t) :=
        ⟨_, _, rfl⟩
      rw [runWithin_of_read hread, evaluateWithin_of_runOn session hrun]
      exact ((frames_evalProgram session.options depth session.root program _).passes
        (passes_of_runOn hrun)).printed

section

variable {a b : String} {first second : Block} {vs : List Value} {t u : State}
  (ha : (Reading.ofText a).program? = .ok first) (hb : (Reading.ofText b).program? = .ok second)

include ha

theorem runWithin_of_gives (hgives : Part.Gives session.options (runBody session.options depth)
    session.root (first.map .stmt) session.state vs t) :
    session.runWithin depth a = (.ok (vs.getLast?.getD .null), { session with state := t }) := by
  rw [runWithin_of_read ha, evaluateWithin_eq, hgives.runOn_block]
  dsimp only
  rw [Value.unwrapReturn_of_ne fun w hw => ?_]
  have hsignal := hgives.isSignal_last .null rfl
  rw [hw] at hsignal
  cases hsignal

theorem runWithin_of_signal {k : Nat} {part : Part} {v : Value}
    (hreaches : (Part.block first).Reaches session.options (runBody session.options depth)
      session.root session.state k part t)
    (hv : (part.eval session.options (runBody session.options depth) session.root).runOn t =
      (some v, u)) (hsignal : v.isSignal = true) :
    session.runWithin depth a = (.ok v.unwrapReturn, { session with state := u }) := by
  have hblock : (Block.eval session.options (runBody session.options depth) session.root
      first).runOn session.state = (some v, u) := hreaches.runOn_eval hv hsignal
  rw [runWithin_of_read ha, evaluateWithin_eq, hblock]

include hb

/-- Behind a text whose statements all give ordinary values the second text goes on. -/
theorem runWithin_join (hopen : endsOpen a.toList = false)
    (hgives : Part.Gives session.options (runBody session.options depth) session.root
      (first.map .stmt) session.state vs t) :
    session.runWithin depth (a ++ "\n;\n" ++ b) =
      (if second.isEmpty then (session.runWithin depth a).1
        else ((session.runWithin depth a).2.runWithin depth b).1,
        ((session.runWithin depth a).2.runWithin depth b).2) := by
  have hlast := hgives.isSignal_last .null rfl
  have hjoined : (Block.eval session.options (runBody session.options depth) session.root
      (first ++ second)).runOn session.state =
        (Block.evalFrom session.options (runBody session.options depth) session.root
          (vs.getLast?.getD .null) second).runOn t := by
    have hfirst := hgives.runOn_block
    rw [Block.eval] at hfirst
    rw [Block.eval, Block.evalFrom_append first second rfl, runOn_onValue, hfirst]
    dsimp only
    rw [if_neg (Bool.eq_false_iff.mp hlast)]
  rw [runWithin_of_gives ha hgives, runWithin_of_read (Reading.program?_join ha hb hopen),
    runWithin_of_read hb, evaluateWithin_eq, evaluateWithin_eq, hjoined]
  cases second with
  | nil =>
      have hne : ∀ w, vs.getLast?.getD .null ≠ .returned w := by
        intro w hw
        rw [hw] at hlast
        cases hlast
      simp only [Block.eval, Block.evalFrom, runOn_pure, List.isEmpty_nil, if_true]
      rw [Value.unwrapReturn_of_ne hne]
  | cons s rest =>
      rw [Block.evalFrom_of_ne_nil (List.cons_ne_nil s rest)]
      obtain ⟨r, w, hr⟩ : ∃ r w, (Block.eval session.options (runBody session.options depth)
        session.root (s :: rest)).runOn t = (r, w) := ⟨_, _, rfl⟩
      rw [hr]
      cases r <;> rfl

end

/-! ### Texts that cannot be read -/

variable {keep : String → Bool} {texts : List String}

theorem history_filter (depth : Nat) (session : Session)
    (hkeep : ∀ text ∈ texts, keep text = false →
      ∃ failure, (Reading.ofText text).program? = .error failure) :
    session.runAll depth (texts.filter keep) = session.runAll depth texts ∧
      session.history depth (texts.filter keep) =
        (session.history depth texts).filter fun row => keep row.1 := by
  let keepRow := fun row : String × Except Failure Value => keep row.1
  induction texts generalizing session with
  | nil => exact ⟨rfl, rfl⟩
  | cons text texts ih =>
      have hrest := fun other hother => hkeep other (List.mem_cons_of_mem text hother)
      cases htext : keep text with
      | true =>
          obtain ⟨hsession, hhistory⟩ := ih (session.runWithin depth text).2 hrest
          refine ⟨?_, ?_⟩
          · rw [List.filter_cons_of_pos htext]
            exact hsession
          · rw [List.filter_cons_of_pos htext, history, history, hhistory]
            exact (List.filter_cons_of_pos (p := keepRow) htext).symm
      | false =>
          obtain ⟨failure, hread⟩ := hkeep text List.mem_cons_self htext
          have hne : ¬keep text = true := by rw [htext]; exact Bool.false_ne_true
          obtain ⟨hsession, hhistory⟩ := ih session hrest
          refine ⟨?_, ?_⟩
          · rw [List.filter_cons_of_neg hne, hsession, runAll, runAll, List.foldl_cons,
              runWithin_of_not_read hread]
          · rw [List.filter_cons_of_neg hne, hhistory, history, runWithin_of_not_read hread]
            exact (List.filter_cons_of_neg (p := keepRow) hne).symm

end Session

/-- A text `a` that does not end inside a string or a block comment, a semicolon on a line of its
own and a text `b` run like `a` and then `b`. If the statements of `a` all give ordinary values, the
session ends as it does after both, what is printed is what both print, and the result is that of
`b`, or that of `a` if `b` has no statements. If a statement of `a` gives a signal, the run is that
of `a` alone and comes to no statement of `b`. When the run of `a` ends, it is one or the other.

A text that cannot be read changes nothing, and the history of a session is the same without such
texts. -/
theorem batches_run_as_histories :
    (∀ (a b : String) (first second : Block), (Reading.ofText a).program? = .ok first →
      (Reading.ofText b).program? = .ok second → endsOpen a.toList = false →
      ∀ (depth : Nat) (session : Session),
        (∀ vs t, Part.Gives session.options (runBody session.options depth) session.root
            (first.map .stmt) session.state vs t →
          session.runWithin depth a =
              (.ok (vs.getLast?.getD .null), { session with state := t }) ∧
            session.runWithin depth (a ++ "\n;\n" ++ b) =
              (if second.isEmpty then (session.runWithin depth a).1
                else ((session.runWithin depth a).2.runWithin depth b).1,
                ((session.runWithin depth a).2.runWithin depth b).2) ∧
            ∃ printed printed',
              (session.runWithin depth a).2.state.output = session.state.output ++ printed ∧
              ((session.runWithin depth a).2.runWithin depth b).2.state.output =
                (session.runWithin depth a).2.state.output ++ printed' ∧
              (session.runWithin depth (a ++ "\n;\n" ++ b)).2.state.output =
                session.state.output ++ (printed ++ printed')) ∧
        (∀ k part t v u, (Part.block first).Reaches session.options
            (runBody session.options depth) session.root session.state k part t →
          (part.eval session.options (runBody session.options depth) session.root).runOn t =
            (some v, u) → v.isSignal = true →
          session.runWithin depth a = (.ok v.unwrapReturn, { session with state := u }) ∧
            session.runWithin depth (a ++ "\n;\n" ++ b) = session.runWithin depth a ∧
            ∀ k' part' t', (Part.block (first ++ second)).Reaches session.options
                (runBody session.options depth) session.root session.state k' part' t' →
              k' < first.length) ∧
        ∀ v after, session.runWithin depth a = (.ok v, after) →
          (∃ vs, Part.Gives session.options (runBody session.options depth) session.root
              (first.map .stmt) session.state vs after.state) ∨
            ∃ k part t w, (Part.block first).Reaches session.options
                (runBody session.options depth) session.root session.state k part t ∧
              (part.eval session.options (runBody session.options depth) session.root).runOn t =
                (some w, after.state) ∧ w.isSignal = true) ∧
    ∀ (depth : Nat) (session : Session),
      (∀ text failure, (Reading.ofText text).program? = .error failure →
        session.runWithin depth text = (.error failure, session)) ∧
      ∀ (keep : String → Bool) (texts : List String),
        (∀ text ∈ texts, keep text = false →
          ∃ failure, (Reading.ofText text).program? = .error failure) →
        session.runAll depth (texts.filter keep) = session.runAll depth texts ∧
          session.history depth (texts.filter keep) =
            (session.history depth texts).filter fun row => keep row.1 := by
  refine ⟨fun a b first second ha hb hopen depth session => ⟨?_, ?_, ?_⟩, fun depth session =>
    ⟨fun text failure hread => Session.runWithin_of_not_read hread depth session,
      fun keep texts hkeep => session.history_filter depth hkeep⟩⟩
  · intro vs t hgives
    have hjoined := Session.runWithin_join ha hb hopen hgives
    obtain ⟨printed, hprinted⟩ := session.exists_printed depth a
    obtain ⟨printed', hprinted'⟩ := (session.runWithin depth a).2.exists_printed depth b
    refine ⟨Session.runWithin_of_gives ha hgives, hjoined, printed, printed', hprinted,
      hprinted', ?_⟩
    rw [hjoined]
    exact hprinted'.trans (by rw [hprinted, String.append_assoc])
  · intro k part t v u hreaches hv hsignal
    obtain ⟨hboth, hlt⟩ := hreaches.append second
    have hfirst := Session.runWithin_of_signal ha hreaches hv hsignal
    refine ⟨hfirst, ?_, fun k' part' t' hreaches' => ?_⟩
    · rw [hfirst]
      exact Session.runWithin_of_signal (Reading.program?_join ha hb hopen) hboth hv hsignal
    · exact Nat.lt_of_le_of_lt (hboth.le_of_signal hv hsignal hreaches') hlt
  · intro v after hrun
    rw [Session.runWithin_of_read ha, Session.evaluateWithin_eq] at hrun
    split at hrun
    · next w u hblock =>
        cases hrun
        rcases Part.block_gives_or_signal hblock with hgives | ⟨k, part, t, hreaches, hw, hsignal⟩
        · exact .inl hgives
        · exact .inr ⟨k, part, t, _, hreaches, hw, hsignal⟩
    · cases hrun

/-- A text that ends in a line comment behind a call. -/
def printingText : String :=
  "let x = 1; print(x) // once"

/-- The program of the text. -/
def printingProgram : Block :=
  [.letIn "x" (.int 1 "1"), .expr (.call (.ident "print") [.ident "x"])]

theorem batches_run_as_histories_of_printing :
    (Reading.ofText printingText).program? = .ok printingProgram ∧
      endsOpen printingText.toList = false ∧
      ((Session.start {}).runWithin 1 (printingText ++ "\n;\n" ++ "x + 1")).1 =
        .ok (.integer 2) ∧
      ((Session.start {}).runWithin 1 (printingText ++ "\n;\n" ++ "x + 1")).2.state.output =
        "1\n" := by
  have ha : (Reading.ofText printingText).program? = .ok printingProgram := by cbv
  have hb : (Reading.ofText "x + 1").program? =
      .ok [.expr (.binary (.ident "x") "+" (.int 1 "1"))] := by cbv
  have hopen : endsOpen printingText.toList = false := by cbv
  let start := (Session.start {}).state
  let bound : State := { start with scopes := start.scopes.set 0 "x" (.integer 1) }
  let printed : State := { bound with output := "1\n" }
  have hlet : ((Part.stmt (.letIn "x" (.int 1 "1"))).eval {} (runBody {} 1) 0).runOn start =
      (some .null, bound) := rfl
  have hprint : ((Part.stmt (.expr (.call (.ident "print") [.ident "x"]))).eval {}
      (runBody {} 1) 0).runOn bound = (some .null, printed) := by cbv
  have hgives : Part.Gives {} (runBody {} 1) 0 (printingProgram.map .stmt) start [.null, .null]
      printed := .cons hlet rfl (.cons hprint rfl (.nil _))
  obtain ⟨hbatch, -⟩ := batches_run_as_histories
  obtain ⟨hordinary, -⟩ := hbatch _ _ _ _ ha hb hopen 1 (Session.start {})
  obtain ⟨hfirst, hjoined, -⟩ := hordinary _ _ hgives
  rw [hfirst] at hjoined
  refine ⟨ha, hopen, ?_, ?_⟩
  · rw [hjoined]
    cbv
  · rw [hjoined]
    cbv

end Scripting
