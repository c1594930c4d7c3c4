import Mathlib
import Scripting.Proofs.Session.Conduct
import Scripting.Proofs.Session.Termination
import Scripting.Proofs.Session.WellMade

/-!
# Integers stay in range

A literal that is read without faults is in the range of signed 64 bits, operators wrap around to
it, and the only other integers that come up are lengths. So as long as no string and no list gets
too long, no integer ever leaves the range, wherever a session keeps it.
-/

namespace Scripting

open Eval

namespace Value

/-- An integer fits signed 64 bits. -/
def InRange : Value → Prop
  | integer n => -halfRange64 ≤ n ∧ n < halfRange64
  | _ => True

/-- A string or a list has less than 2^63 elements. -/
def IsShort : Value → Prop
  | string s => (s.length : Int) < halfRange64
  | array _ elements => (elements.length : Int) < halfRange64
  | _ => True

end Value

/-- A length that is small enough is in range. -/
theorem inRange_length {n : Nat} (h : (n : Int) < halfRange64) :
    -halfRange64 ≤ (n : Int) ∧ (n : Int) < halfRange64 := by
  refine ⟨?_, h⟩
  have hpositive : (0 : Int) ≤ halfRange64 := by decide
  omega

/-- The conduct of scripts whose literals are in range. -/
def Conduct.inRange : Conduct where
  toWatch := .nothing
  node := Part.Forall Expr.IsSound
  name _ := True
  integer n := -halfRange64 ≤ n ∧ n < halfRange64
  literal := FunctionLiteral.Forall Expr.IsSound
  measured := Value.IsShort
  child := Part.forall_of_mem_children
  int h := by
    obtain ⟨-, -, hpositive, hsmall⟩ := h.resolve_left Expr.noConfusion
    unfold largestInteger at hsmall
    unfold halfRange64
    omega
  letIn _ := trivial
  assign _ := trivial
  classDef h := ⟨trivial, (FunctionLiteral.forallIn_iff _).mp h⟩
  function h := by
    have hliteral := h.resolve_left Expr.noConfusion
    rw [Expr.Forall] at hliteral
    exact hliteral.2
  params _ _ _ := trivial
  body := FunctionLiteral.forall_body
  wrapped := wrap64_mem_range
  array := inRange_length
  string := inRange_length

theorem Conduct.Holds.inRange {s : State} {v : Value} (h : Conduct.inRange.Holds s v) : v.InRange := by
  cases v with
  | integer n => exact h
  | _ => trivial

theorem Conduct.reads_inRange : Conduct.inRange.Reads := by
  intro text program hread
  obtain ⟨hfaultless, rfl⟩ := Reading.program?_eq_ok hread
  exact Reading.forall_isSound hfaultless (digitRows_tokenize text)

theorem Conduct.Safe.inRange {s : State} {v : Value} (h : Conduct.inRange.Safe s v) :
    v.Everywhere Value.InRange :=
  h.mono fun _ h => h.inRange

variable {options : Options} {s : State}

/-- As long as all strings and lists are short, runs lead to states with integers in range only. -/
theorem Session.leads_inRange
    (hs : (Session.start options).LeadsAlong (Evaluation.GivesOnly options Value.IsShort)
      (Session.start options).state s) :
    Conduct.inRange.Leads (Session.start options).state s := by
  have hobeyed (e : Evaluation) (h : e.GivesOnly options Value.IsShort) :
      Conduct.inRange.Obeyed (Session.start options).options e :=
    ⟨h, fun _ _ _ _ _ => trivial⟩
  exact Conduct.leads_of_leadsAlong Conduct.reads_inRange hobeyed (Conduct.tidy_start options) hs

/-- As long as all strings and lists that come up have less than 2^63 elements, all integers are in
the range of signed 64 bits: those that a state stores, at every moment of every run, those that an
expression gives in the course of a run, which the arguments of calls are among, and those in the
result of a text. -/
theorem integers_stay_in_range (options : Options) (s : State)
    (hs : (Session.start options).LeadsAlong (Evaluation.GivesOnly options Value.IsShort)
      (Session.start options).state s) :
    (s.Stores fun v => v.Everywhere Value.InRange) ∧
      ∀ text program depth, (Reading.ofText text).program? = .ok program →
        (⟨depth, .block program, (Session.start options).root, s⟩ : Evaluation).GivesOnly
          options Value.IsShort →
        (⟨depth, .block program, (Session.start options).root, s⟩ : Evaluation).GivesOnly
            options (fun v => v.Everywhere Value.InRange) ∧
          ∀ v, ({ Session.start options with state := s }.runWithin depth text).1 = .ok v →
            v.Everywhere Value.InRange := by
  have hleads := Session.leads_inRange hs
  refine ⟨hleads.tidy.stores.mono fun v hv => Conduct.Safe.inRange hv, ?_⟩
  intro text program depth hread hgives
  have hprogram : Conduct.inRange.Admitted options
      ⟨depth, .block program, (Session.start options).root, s⟩ :=
    ⟨⟨hleads.tidy, Conduct.reads_inRange text program hread⟩, hgives, fun _ _ _ _ _ => trivial⟩
  constructor
  · intro inner hstarted v t hv
    exact Conduct.Safe.inRange ((hprogram.started hstarted).1.follows.result hv).2
  · intro v hv
    obtain ⟨t, hrun⟩ := Session.runOn_of_read hread hv
    exact Conduct.Safe.inRange ((Conduct.leads_evalProgram hprogram).result hrun).2

/-- A product of a length and powers of two that is 2^63. -/
def overflowingText : String :=
  "len(\"ab\") * 65536 * 65536 * 65536 * 16384"

/-- The tree of `overflowingText`. -/
def overflowingProgram : Block :=
  [.expr (.binary (.binary (.binary (.binary (.call (.ident "len") [.str "ab"]) "*"
    (.int 65536 "65536")) "*" (.int 65536 "65536")) "*" (.int 65536 "65536")) "*"
    (.int 16384 "16384"))]

theorem parts_overflowingProgram {n part : Part} {vs : List Value}
    (hn : n ∈ Block.nodes overflowingProgram) (hpart : part ∈ n.parts vs) :
    part ∈ Block.nodes overflowingProgram := by
  simp only [overflowingProgram, Block.nodes, Block.nodesIn, Stmt.nodes, Expr.nodes,
    Expr.nodesIn, List.append_nil, List.cons_append, List.nil_append, List.mem_cons,
    List.not_mem_nil, or_false] at hn ⊢
  rcases hn with rfl | rfl | rfl | rfl | rfl | rfl | rfl | rfl | rfl | rfl | rfl | rfl | rfl
  all_goals simp [Part.parts] at hpart
  all_goals grind

theorem isShort_overflowingProgram {n : Part} {depth scope : Nat} {s t : State} {v : Value}
    (hn : n ∈ Block.nodes overflowingProgram)
    (hv : (n.eval {} (runBody {} depth) scope).runOn s = (some v, t)) : v.IsShort := by
  simp only [overflowingProgram, Block.nodes, Block.nodesIn, Stmt.nodes, Expr.nodes,
    Expr.nodesIn, List.append_nil, List.cons_append, List.nil_append, List.mem_cons,
    List.not_mem_nil, or_false] at hn
  rcases hn with rfl | rfl | rfl | rfl | rfl | rfl | rfl | rfl | rfl | rfl | rfl | rfl | rfl
  all_goals cases hv
  -- The text is the only value that has a length.
  all_goals first | trivial | exact (by decide : ((2 : Nat) : Int) < halfRange64)

theorem givesOnly_overflowingProgram (depth scope : Nat) (s : State) :
    (⟨depth, .block overflowingProgram, scope, s⟩ : Evaluation).GivesOnly {} Value.IsShort :=
  fun _ hstarted _ _ hv => isShort_overflowingProgram (Part.node_mem_of_started
    (fun _ hn _ _ hpart => parts_overflowingProgram hn hpart) (by decide) List.mem_cons_self
    hstarted) hv

theorem integers_stay_in_range_of_overflowing :
    ∃ s, (Session.start {}).LeadsAlong (Evaluation.GivesOnly {} Value.IsShort)
        (Session.start {}).state s ∧
      ((Session.start {}).run overflowingText).1 = .ok (.integer (-9223372036854775808)) ∧
      (Value.integer (-9223372036854775808)).Everywhere Value.InRange := by
  have hread : (Reading.ofText overflowingText).program? = .ok overflowingProgram := by cbv
  have hrun : ((Session.start {}).run overflowingText).1 =
      .ok (.integer (-9223372036854775808)) := by
    rw [Session.run_of_read hread]
    cbv
  obtain ⟨-, hruns⟩ := integers_stay_in_range {} _ .refl
  obtain ⟨-, hresult⟩ := hruns _ _ (Options.depthLimit {}) hread
    (givesOnly_overflowingProgram _ _ _)
  exact ⟨_, .refl, hrun, hresult _ hrun⟩

end Scripting
