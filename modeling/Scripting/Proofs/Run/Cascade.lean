import Scripting.Proofs.Reading.ElseIf
import Scripting.Proofs.Run.Logic

/-!
# The first true arm

A conditional with several arms evaluates their conditions one after another, and goes no further
than the first that is true. `FirstTrue` follows it from arm to arm and from state to state, and
says with what it ends.
-/

namespace Scripting

open Eval Phrase Precedence Step

namespace Arm

section

variable (options : Options) (run : RunBody) (scope : Nat) (last : Option Block)

/-- What is evaluated behind the last arm: the block there, or nothing. -/
def evalLast : Eval Value :=
  last.elim (pure .null) (Block.eval options run scope)

/-- The evaluation of arms, each the alternative of the one before it. -/
def evalAll : List Arm → Eval Value
  | [] => evalLast options run scope last
  | arm :: more =>
      branch (arm.condition.eval options run scope) (Block.eval options run scope arm.block)
        (evalAll more)

/-- Arms that are tried from a state on end with a result and a state: those of the block of the
first arm whose condition is true, those of the block behind all arms if there is none, or those of
a condition that gives a signal or no value at all. -/
inductive FirstTrue : List Arm → State → Option Value × State → Prop where
  | otherwise (s : State) : FirstTrue [] s ((evalLast options run scope last).runOn s)
  | noValue {arm : Arm} {s t : State} (more : List Arm)
      (h : (arm.condition.eval options run scope).runOn s = (none, t)) :
      FirstTrue (arm :: more) s (none, t)
  | signal {arm : Arm} {s t : State} {v : Value} (more : List Arm)
      (h : (arm.condition.eval options run scope).runOn s = (some v, t))
      (hv : v.isSignal = true) : FirstTrue (arm :: more) s (some v, t)
  | here {arm : Arm} {s t : State} {v : Value} (more : List Arm)
      (h : (arm.condition.eval options run scope).runOn s = (some v, t))
      (hsignal : v.isSignal = false) (hv : v.isTruthy = true) :
      FirstTrue (arm :: more) s ((Block.eval options run scope arm.block).runOn t)
  | there {arm : Arm} {more : List Arm} {s t : State} {v : Value} {r : Option Value × State}
      (h : (arm.condition.eval options run scope).runOn s = (some v, t))
      (hsignal : v.isSignal = false) (hv : v.isTruthy = false) (hmore : FirstTrue more t r) :
      FirstTrue (arm :: more) s r

end

variable {options : Options} {run : RunBody} {scope : Nat} {last : Option Block}

/-- The arms come to one end, and that is what their evaluation has as its result. -/
theorem firstTrue_iff {arms : List Arm} {s : State} {r : Option Value × State} :
    FirstTrue options run scope last arms s r ↔
      (evalAll options run scope last arms).runOn s = r := by
  constructor
  · intro h
    induction h with
    | otherwise s => rfl
    | noValue more h => exact runOn_branch_of_none h _ _
    | signal more h hv => exact runOn_branch_of_signal h hv _ _
    | here more h hsignal hv => rw [evalAll, runOn_branch_of_value h hsignal, if_pos hv]
    | there h hsignal hv _ ih =>
        rw [evalAll, runOn_branch_of_value h hsignal, if_neg (Bool.eq_false_iff.mp hv)]
        exact ih
  · rintro rfl
    induction arms generalizing s with
    | nil => exact .otherwise s
    | cons arm more ih =>
        obtain ⟨result, t, h⟩ :
            ∃ result t, (arm.condition.eval options run scope).runOn s = (result, t) :=
          ⟨_, _, rfl⟩
        rw [evalAll]
        cases result with
        | none =>
            rw [runOn_branch_of_none h]
            exact .noValue more h
        | some v =>
            cases hsignal : v.isSignal with
            | true =>
                rw [runOn_branch_of_signal h hsignal]
                exact .signal more h hsignal
            | false =>
                rw [runOn_branch_of_value h hsignal]
                cases hv : v.isTruthy with
                | true => exact .here more h hsignal hv
                | false => exact .there h hsignal hv ih

end Arm

/-- A conditional with several arms is evaluated arm by arm. -/
theorem Expr.eval_cascade (options : Options) (run : RunBody) (scope : Nat) (last : Option Block)
    (arm : Arm) (more : List Arm) :
    (cascade arm more last).eval options run scope =
      Arm.evalAll options run scope last (arm :: more) := by
  induction more generalizing arm with
  | nil => rw [cascade, eval_cond]; rfl
  | cons next more ih =>
      rw [cascade, eval_cond, Option.elim, eval_block, ih]
      rfl

/-- With `else if` or with an `if` in the braces of each `else`, arms that can be read by themselves
are read without a fault and as one tree, in front of whatever ends an expression and is no `else`.
Evaluated on any state it tries its arms up to the first true one, and ends as that does. -/
theorem else_ifs_are_nested_ifs (arm : Arm) (more : List Arm) (last : Option Block) :
    (∀ ⦃t : Token⦄ ⦃ts us : List Token⦄, t.kind = .ifWord → IsArm ts arm →
      IsElseIfs us more last ∨ IsNestedIfs us more last →
        IsExpression (t :: (ts ++ us)) (cascade arm more last) ∧
          ∀ rest, (aheadKind rest).precedence = lowest → aheadKind rest ≠ .elseWord →
            Reading.ofTokens (t :: (ts ++ (us ++ rest))) =
              ⟨.expr (cascade arm more last) :: (Reading.ofTokens rest).program,
                (Reading.ofTokens rest).errors⟩) ∧
      ∀ (options : Options) (run : RunBody) (scope : Nat) (s : State) (r : Option Value × State),
        ((cascade arm more last).eval options run scope).runOn s = r ↔
          Arm.FirstTrue options run scope last (arm :: more) s r := by
  constructor
  · intro t ts us ht harm hmore
    have hspelled (rest : List Token) (hrest : (aheadKind rest).precedence = lowest)
        (helse : aheadKind rest ≠ .elseWord) :
        (expression lowest (cascade arm more last)).Spelled (t :: (ts ++ (us ++ rest))) rest := by
      have hconditional : (conditional (cascade arm more last)).Spelled (ts ++ (us ++ rest))
          rest := by
        rcases hmore with h | h
        · exact h.spelled harm helse
        · exact h.spelled harm helse
      exact .expression (.condition ht hconditional) (.noOperator (Nat.le_of_eq hrest))
    constructor
    · have hwhole := hspelled [] rfl (by decide)
      rw [List.append_nil] at hwhole
      exact .of_spelled hwhole
    · exact fun rest hrest helse => (hspelled rest hrest helse).ofTokens_expression
  · intro options run scope s r
    rw [Expr.eval_cascade, Arm.firstTrue_iff]

/-- The arm `(print("a")) {}`. -/
def silentArm : Arm :=
  ⟨.call (.ident "print") [.str "a"], []⟩

/-- The arm `(true) { return }`. -/
def returningArm : Arm :=
  ⟨.bool true, [.ret .missing]⟩

def silentTokens : List Token :=
  [⟨.lparen, "(", 3⟩, ⟨.printWord, "print", 4⟩, ⟨.lparen, "(", 9⟩, ⟨.string, "a", 10⟩,
    ⟨.rparen, ")", 13⟩, ⟨.rparen, ")", 14⟩, ⟨.lbrace, "\x7b", 16⟩, ⟨.rbrace, "\x7d", 17⟩]

def returningTokens : List Token :=
  [⟨.lparen, "(", 27⟩, ⟨.trueWord, "true", 28⟩, ⟨.rparen, ")", 32⟩, ⟨.lbrace, "\x7b", 34⟩,
    ⟨.returnWord, "return", 36⟩, ⟨.rbrace, "\x7d", 43⟩]

/-- Tokens of `else { "c" }`. -/
def elseTokens : List Token :=
  [⟨.elseWord, "else", 45⟩, ⟨.lbrace, "\x7b", 50⟩, ⟨.string, "c", 52⟩, ⟨.rbrace, "\x7d", 56⟩]

/-- The second arm and the last block behind `else if`. -/
def elseIfTokens : List Token :=
  ⟨.elseWord, "else", 19⟩ :: ⟨.ifWord, "if", 24⟩ :: (returningTokens ++ elseTokens)

/-- The second arm and the last block as an `if` in the braces of an `else`. -/
def nestedTokens : List Token :=
  ⟨.elseWord, "else", 19⟩ :: ⟨.lbrace, "\x7b", 24⟩ :: ⟨.ifWord, "if", 25⟩ ::
    (returningTokens ++ (elseTokens ++ [⟨.rbrace, "\x7d", 57⟩]))

theorem isArm_silentTokens : IsArm silentTokens silentArm := by
  have hcondition : IsExpression [⟨.printWord, "print", 4⟩, ⟨.lparen, "(", 9⟩, ⟨.string, "a", 10⟩,
      ⟨.rparen, ")", 13⟩] silentArm.condition := rfl
  have hblock : IsBlock [⟨.rbrace, "\x7d", 17⟩] silentArm.block := rfl
  exact .mk rfl hcondition rfl rfl hblock

theorem isArm_returningTokens : IsArm returningTokens returningArm := by
  have hcondition : IsExpression [⟨.trueWord, "true", 28⟩] returningArm.condition := rfl
  have hblock : IsBlock [⟨.returnWord, "return", 36⟩, ⟨.rbrace, "\x7d", 43⟩]
      returningArm.block := rfl
  exact .mk rfl hcondition rfl rfl hblock

theorem isElse_elseTokens : IsElse elseTokens (some [.expr (.str "c")]) := by
  have hblock : IsBlock [⟨.string, "c", 52⟩, ⟨.rbrace, "\x7d", 56⟩] [.expr (.str "c")] := rfl
  exact .some rfl rfl hblock

/-- The first condition prints an `a` and is not true, the second is, and its block returns. -/
theorem else_ifs_are_nested_ifs_of_twoArms :
    (∀ tokens ∈ [elseIfTokens, nestedTokens],
      Reading.ofTokens (⟨.ifWord, "if", 0⟩ :: (silentTokens ++ (tokens ++ [⟨.eof, "", 58⟩]))) =
        ⟨[.expr (cascade silentArm [returningArm] (some [.expr (.str "c")]))], []⟩) ∧
      ((cascade silentArm [returningArm] (some [.expr (.str "c")])).eval {}
          (runBody {} 1) 0).runOn .oneScope =
        (some (.returned .null), { State.oneScope with output := "a\n" }) := by
  obtain ⟨hread, heval⟩ :=
    else_ifs_are_nested_ifs silentArm [returningArm] (some [.expr (.str "c")])
  have helseIf : IsElseIfs elseIfTokens [returningArm] (some [.expr (.str "c")]) :=
    .elseIf rfl rfl isArm_returningTokens (.last isElse_elseTokens)
  have hnested : IsNestedIfs nestedTokens [returningArm] (some [.expr (.str "c")]) :=
    .nested rfl rfl rfl isArm_returningTokens (.last isElse_elseTokens) rfl
  constructor
  · intro tokens htokens
    have hmore : IsElseIfs tokens [returningArm] (some [.expr (.str "c")]) ∨
        IsNestedIfs tokens [returningArm] (some [.expr (.str "c")]) := by
      simp only [List.mem_cons, List.not_mem_nil, or_false] at htokens
      rcases htokens with rfl | rfl
      · exact .inl helseIf
      · exact .inr hnested
    exact (hread rfl isArm_silentTokens hmore).2 [⟨.eof, "", 58⟩] rfl (by decide)
  · refine (heval _ _ _ _ _).mpr ?_
    exact .there (v := .null) rfl rfl rfl (.here (v := .boolean true) [] rfl rfl rfl)

end Scripting
