import Scripting.Proofs.Reading.Join
import Scripting.Proofs.Reading.Soundness

/-!
# Named functions

A function with a name behind its first word is a `let` of that name. The two ways of writing it are
read by different readers: the one takes a function and is done, the other takes an expression,
which goes on as long as operators follow. They agree in front of any tokens, faulty ones too, that
do not begin with an operator behind an operand.
-/

namespace Scripting

open Step Precedence

/-- The kinds of the tokens that go on with the expression in front of them. -/
def TokenKind.afterOperand : List TokenKind :=
  [.assign, .and, .or, .eq, .notEq, .lt, .gt, .plus, .minus, .slash, .asterisk, .lparen, .lbracket,
    .dot]

theorem TokenKind.precedence_le_lowest {kind : TokenKind} (h : kind ∉ afterOperand) :
    kind.precedence ≤ lowest := by
  unfold precedence
  split <;> first | exact Nat.le_refl _ | exact absurd (by decide) h

/-- Tokens that are read as the parameters and the body of a function, all of them and without a
fault. -/
def IsFunction (ts : List Token) (literal : FunctionLiteral) : Prop :=
  ∃ fuel, (Grammar.functionLiteral fuel).Yields ts (some literal) []

variable {ts rest : List Token} {literal : FunctionLiteral}

/-- A function is spelled in front of anything. -/
theorem IsFunction.spelled_append (h : IsFunction ts literal) (rest : List Token) :
    (Phrase.functionLiteral literal).Spelled (ts ++ rest) rest := by
  obtain ⟨fuel, h⟩ := h
  obtain ⟨_, ⟨⟩, halone⟩ := (Grammar.soundAt fuel).functionLiteral h
  obtain ⟨ts', hts, hspelled⟩ := halone.regrow rest trivial
  rw [← hts.of_nil]
  exact hspelled

section

variable {t u v w : Token}

theorem IsFunction.ofTokens_named (h : IsFunction ts literal) (ht : t.kind = .funcWord)
    (hu : u.kind = .ident) (rest : List Token) :
    Reading.ofTokens (t :: u :: (ts ++ rest)) =
      ⟨.letIn u.literal (.function literal) :: (Reading.ofTokens rest).program,
        (Reading.ofTokens rest).errors⟩ :=
  Phrase.Spelled.ofTokens_ended fun _ hend => .namedFunction ht hu (h.spelled_append rest) hend

theorem IsFunction.ofTokens_letIn (h : IsFunction ts literal) (ht : t.kind = .letWord)
    (hu : u.kind = .ident) (hv : v.kind = .assign) (hw : w.kind = .funcWord)
    (hrest : aheadKind rest ∉ TokenKind.afterOperand) :
    Reading.ofTokens (t :: u :: v :: w :: (ts ++ rest)) =
      ⟨.letIn u.literal (.function literal) :: (Reading.ofTokens rest).program,
        (Reading.ofTokens rest).errors⟩ := by
  have hvalue : (Phrase.expression lowest (.function literal)).Spelled (w :: (ts ++ rest)) rest :=
    .expression (.function hw (h.spelled_append rest))
      (.noOperator (TokenKind.precedence_le_lowest hrest))
  exact Phrase.Spelled.ofTokens_ended fun _ hend => .letIn ht hu hv hvalue hend

end

/-- A named function is read as the `let` of its name is, in front of any tokens that do not go on
with an expression: the same tree, with the function for the name and what is read of the others,
and the same faults, which are those of the others. -/
theorem named_functions_are_lets (ts rest : List Token) (literal : FunctionLiteral)
    (function name letWord assign : Token) (hts : IsFunction ts literal)
    (hfunction : function.kind = .funcWord) (hname : name.kind = .ident)
    (hletWord : letWord.kind = .letWord) (hassign : assign.kind = .assign)
    (hrest : aheadKind rest ∉ TokenKind.afterOperand) :
    Reading.ofTokens (function :: name :: (ts ++ rest)) =
        Reading.ofTokens (letWord :: name :: assign :: function :: (ts ++ rest)) ∧
      Reading.ofTokens (function :: name :: (ts ++ rest)) =
        ⟨.letIn name.literal (.function literal) :: (Reading.ofTokens rest).program,
          (Reading.ofTokens rest).errors⟩ := by
  have hnamed := hts.ofTokens_named hfunction hname rest
  have hlet := hts.ofTokens_letIn hletWord hname hassign hfunction hrest
  exact ⟨hnamed.trans hlet.symm, hnamed⟩

/-- The tokens of `(a) { return }`. -/
def givingNothing : List Token :=
  [⟨.lparen, "(", 5⟩, ⟨.ident, "a", 6⟩, ⟨.rparen, ")", 7⟩, ⟨.lbrace, "\x7b", 9⟩,
    ⟨.returnWord, "return", 11⟩, ⟨.rbrace, "\x7d", 18⟩]

theorem named_functions_are_lets_of_givingNothing :
    IsFunction givingNothing (.mk ["a"] [.ret .missing]) ∧
      Reading.ofTokens (⟨.funcWord, "func", 0⟩ :: ⟨.ident, "f", 3⟩ ::
          (givingNothing ++ strayElse)) =
        Reading.ofTokens (⟨.letWord, "let", 0⟩ :: ⟨.ident, "f", 3⟩ :: ⟨.assign, "=", 0⟩ ::
          ⟨.funcWord, "func", 0⟩ :: (givingNothing ++ strayElse)) := by
  have hfunction : IsFunction givingNothing (.mk ["a"] [.ret .missing]) := ⟨5, rfl⟩
  have hrest : aheadKind strayElse ∉ TokenKind.afterOperand := by decide
  exact ⟨hfunction, (named_functions_are_lets givingNothing strayElse (.mk ["a"] [.ret .missing])
    ⟨.funcWord, "func", 0⟩ ⟨.ident, "f", 3⟩ ⟨.letWord, "let", 0⟩ ⟨.assign, "=", 0⟩ hfunction rfl rfl
    rfl rfl hrest).1⟩

end Scripting
