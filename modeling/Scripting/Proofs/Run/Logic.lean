import Scripting.Proofs.Run.FirstSignal

/-!
# Logical operators

A condition with two ways to go on is all that the logical operators are made of. What comes of a
condition may be the condition of another (`Eval.branch_branch`), and from that the laws of the
booleans follow. They hold of whole computations: both sides evaluate the same operands in the same
order, so they pass through the same states and end in the same one with the same result, be it a
value, a signal or none at all.
-/

namespace Scripting

open Eval

namespace Eval

/-- Goes on by whether a value is true; a signal is the result at once. -/
def branch (x whenTrue whenFalse : Eval Value) : Eval Value :=
  x.onValue fun v => if v.isTruthy then whenTrue else whenFalse

variable {x y z : Eval Value}

@[simp] theorem branch_true (y z : Eval Value) : branch (pure (.boolean true)) y z = y :=
  pure_onValue rfl

@[simp] theorem branch_false (y z : Eval Value) : branch (pure (.boolean false)) y z = z :=
  pure_onValue rfl

@[simp] theorem branch_branch (x y z y' z' : Eval Value) :
    branch (branch x y z) y' z' = branch x (branch y y' z') (branch z y' z') := by
  rw [branch, branch, onValue_onValue]
  exact onValue_congr fun v _ => apply_ite (fun w => branch w y' z') _ y z

section

variable {s t : State} {v : Value}

theorem runOn_branch_of_none (h : x.runOn s = (none, t)) (y z : Eval Value) :
    (branch x y z).runOn s = (none, t) := by
  rw [branch, runOn_onValue, h]

theorem runOn_branch_of_signal (h : x.runOn s = (some v, t)) (hv : v.isSignal = true)
    (y z : Eval Value) : (branch x y z).runOn s = (some v, t) := by
  rw [branch, runOn_onValue, h]
  exact if_pos hv

theorem runOn_branch_of_value (h : x.runOn s = (some v, t)) (hv : v.isSignal = false)
    (y z : Eval Value) :
    (branch x y z).runOn s = (if v.isTruthy then y else z).runOn t := by
  rw [branch, runOn_onValue, h]
  exact if_neg (Bool.eq_false_iff.mp hv)

end

/-- Whether a value is true, as a value. -/
def truth (x : Eval Value) : Eval Value :=
  branch x (pure (.boolean true)) (pure (.boolean false))

theorem onValue_isTruthy (x : Eval Value) :
    (x.onValue fun v => pure (.boolean v.isTruthy)) = truth x := by
  refine onValue_congr fun v _ => ?_
  cases v.isTruthy <;> rfl

/-- Every result is a boolean or a signal. -/
def IsTest (x : Eval Value) : Prop :=
  ∀ ⦃s t : State⦄ ⦃v : Value⦄, x.runOn s = (some v, t) → v.isSignal = false →
    ∃ p, v = .boolean p

theorem isTest_boolean (p : Bool) : IsTest (pure (.boolean p)) := by
  rintro s t v ⟨⟩ -
  exact ⟨p, rfl⟩

theorem IsTest.branch (hy : IsTest y) (hz : IsTest z) : IsTest (branch x y z) := by
  intro s t v h hv
  obtain ⟨r, u, hx⟩ : ∃ r u, x.runOn s = (r, u) := ⟨_, _, rfl⟩
  cases r with
  | none =>
      rw [runOn_branch_of_none hx] at h
      cases h
  | some w =>
      cases hw : w.isSignal with
      | true =>
          rw [runOn_branch_of_signal hx hw] at h
          cases h
          rw [hw] at hv
          cases hv
      | false =>
          rw [runOn_branch_of_value hx hw] at h
          split at h
          · exact hy h hv
          · exact hz h hv

theorem isTest_truth (x : Eval Value) : IsTest (truth x) :=
  (isTest_boolean true).branch (isTest_boolean false)

end Eval

namespace Expr

/-- The negation of an expression. -/
def negated (operand : Expr) : Expr :=
  .unary "!" operand

/-- Two expressions joined by `&&`. -/
def both (left right : Expr) : Expr :=
  .logical left "&&" right

/-- Two expressions joined by `||`. -/
def either (left right : Expr) : Expr :=
  .logical left "||" right

section

variable (options : Options) (run : RunBody) (scope : Nat) (a b c : Expr)

theorem eval_negated : (negated a).eval options run scope =
    branch (a.eval options run scope) (pure (.boolean false)) (pure (.boolean true)) := by
  rw [negated, eval]
  refine onValue_congr fun v _ => ?_
  rw [Value.unary]
  cases v.isTruthy <;> rfl

theorem eval_both : (both a b).eval options run scope =
    branch (a.eval options run scope) (truth (b.eval options run scope))
      (pure (.boolean false)) := by
  rw [both, eval, onValue_isTruthy]
  refine onValue_congr fun v _ => ?_
  cases v.isTruthy <;> simp

theorem eval_either : (either a b).eval options run scope =
    branch (a.eval options run scope) (pure (.boolean true))
      (truth (b.eval options run scope)) := by
  rw [either, eval, onValue_isTruthy]
  refine onValue_congr fun v _ => ?_
  cases v.isTruthy <;> simp

theorem eval_cond (consequence : Block) (alternative : Option Block) :
    (cond a consequence alternative).eval options run scope =
      branch (a.eval options run scope) (Block.eval options run scope consequence)
        (alternative.elim (pure .null) (Block.eval options run scope)) := by
  rw [eval.eq_def]
  refine onValue_congr fun v _ => ?_
  cases alternative <;> rfl

/-- A block that is an expression has its value. -/
theorem eval_block : Block.eval options run scope [.expr a] = a.eval options run scope := by
  rw [Block.eval, Block.evalFrom, Stmt.eval]
  exact onValue_pure _

theorem eval_bool (p : Bool) : (bool p).eval options run scope = pure (.boolean p) := by
  rw [eval]

theorem eval_negated_negated :
    (negated (negated a)).eval options run scope = truth (a.eval options run scope) := by
  simp [eval_negated, truth]

theorem eval_negated_both : (negated (both a b)).eval options run scope =
    (either (negated a) (negated b)).eval options run scope := by
  simp [eval_negated, eval_both, eval_either, truth]

theorem eval_negated_either : (negated (either a b)).eval options run scope =
    (both (negated a) (negated b)).eval options run scope := by
  simp [eval_negated, eval_both, eval_either, truth]

theorem eval_both_both : (both (both a b) c).eval options run scope =
    (both a (both b c)).eval options run scope := by
  simp [eval_both, truth]

theorem eval_either_either : (either (either a b) c).eval options run scope =
    (either a (either b c)).eval options run scope := by
  simp [eval_either, truth]

theorem eval_both_eq_cond : (both a b).eval options run scope =
    (cond a [.expr (negated (negated b))] (some [.expr (bool false)])).eval options run scope := by
  rw [eval_both, eval_cond, eval_block, eval_negated_negated, Option.elim, eval_block, eval_bool]

theorem eval_either_eq_cond : (either a b).eval options run scope =
    (cond a [.expr (bool true)] (some [.expr (negated (negated b))])).eval options run scope := by
  rw [eval_either, eval_cond, eval_block, eval_bool, Option.elim, eval_block, eval_negated_negated]

theorem isTest_negated : IsTest ((negated a).eval options run scope) := by
  rw [eval_negated]
  exact (isTest_boolean false).branch (isTest_boolean true)

theorem isTest_both : IsTest ((both a b).eval options run scope) := by
  rw [eval_both]
  exact (isTest_truth _).branch (isTest_boolean false)

theorem isTest_either : IsTest ((either a b).eval options run scope) := by
  rw [eval_either]
  exact (isTest_boolean true).branch (isTest_truth _)

end

end Expr

open Scripting.Expr

/-- The laws of the booleans hold of logical operators whatever their operands do. Each equation is
one of computations, so that the two sides have the same result, or both none, the same output and
the same state in the end. -/
theorem logic_is_boolean (options : Options) (run : RunBody) (scope : Nat) (a b c : Expr) :
    (negated (both a b)).eval options run scope =
        (either (negated a) (negated b)).eval options run scope ∧
      (negated (either a b)).eval options run scope =
        (both (negated a) (negated b)).eval options run scope ∧
      (both (both a b) c).eval options run scope =
        (both a (both b c)).eval options run scope ∧
      (either (either a b) c).eval options run scope =
        (either a (either b c)).eval options run scope ∧
      (both a b).eval options run scope =
        (cond a [.expr (negated (negated b))] (some [.expr (bool false)])).eval
          options run scope ∧
      (either a b).eval options run scope =
        (cond a [.expr (bool true)] (some [.expr (negated (negated b))])).eval
          options run scope ∧
      ∀ e ∈ [negated a, both a b, either a b], ∀ ⦃s t : State⦄ ⦃v : Value⦄,
        (e.eval options run scope).runOn s = (some v, t) → v.isSignal = false →
          ∃ p, v = .boolean p := by
  refine ⟨eval_negated_both options run scope a b, eval_negated_either options run scope a b,
    eval_both_both options run scope a b c, eval_either_either options run scope a b c,
    eval_both_eq_cond options run scope a b, eval_either_eq_cond options run scope a b, ?_⟩
  intro e he
  simp only [List.mem_cons, List.not_mem_nil, or_false] at he
  obtain rfl | rfl | rfl := he
  · exact isTest_negated options run scope a
  · exact isTest_both options run scope a b
  · exact isTest_either options run scope a b

/-- Printing an `a` gives null, so that what is joined to it by `&&` is not evaluated. -/
def printingFirst : Expr :=
  both (.call (.ident "print") [.str "a"]) .missing

theorem logic_is_boolean_of_printingFirst :
    (printingFirst.eval {} (runBody {} 1) 0).runOn .oneScope =
        (some (.boolean false), { State.oneScope with output := "a\n" }) ∧
      ∃ p, Value.boolean false = .boolean p := by
  have hrun : (printingFirst.eval {} (runBody {} 1) 0).runOn .oneScope =
      (some (.boolean false), { State.oneScope with output := "a\n" }) := rfl
  obtain ⟨-, -, -, -, -, -, hboolean⟩ :=
    logic_is_boolean {} (runBody {} 1) 0 (.call (.ident "print") [.str "a"]) .missing .missing
  exact ⟨hrun, hboolean printingFirst (by simp [printingFirst]) hrun rfl⟩

end Scripting
