import Scripting.Value

/-!
# Operators on values

Integers wrap around to signed 64 bits; division goes toward zero. Two integers and two strings
have operators of their own; for any other two values of one type only `==` and `!=` are defined,
and two values of different types cannot be combined at all. An operator comes as the text it was
written with; one that does not fit its operands gives a runtime error.
-/

namespace Scripting

/-- The smallest 64-bit integer, -2^63, without its sign. -/
def halfRange64 : Int := 9223372036854775808

/-- The number of 64-bit integers, 2^64. -/
def range64 : Int := 18446744073709551616

/-- The signed 64-bit integer that agrees with `n` modulo 2^64. -/
def wrap64 (n : Int) : Int :=
  (n + halfRange64) % range64 - halfRange64

theorem wrap64_mem_range (n : Int) : -halfRange64 ≤ wrap64 n ∧ wrap64 n < halfRange64 := by
  unfold wrap64 halfRange64 range64
  omega

theorem wrap64_emod (n : Int) : wrap64 n % range64 = n % range64 := by
  unfold wrap64 halfRange64 range64
  omega

/-- The quotient of two integers rounded toward zero: that of their absolute values, negated if
just one of the two is negative. -/
def quotient (a b : Int) : Int :=
  let size := a.natAbs / b.natAbs
  if decide (a < 0) ≠ decide (b < 0) then -size else size

/-- Absolute values and signs give the truncated quotient. -/
theorem quotient_eq_tdiv (a b : Int) : quotient a b = a.tdiv b := by
  have hpos (k : Nat) : decide (Int.ofNat k < 0) = false :=
    decide_eq_false (Int.not_lt.mpr (Int.natCast_nonneg k))
  have hneg (k : Nat) : decide (Int.negSucc k < 0) = true :=
    decide_eq_true (Int.negSucc_lt_zero k)
  cases a with
  | ofNat m =>
      cases b with
      | ofNat n =>
          rw [quotient, hpos, hpos]
          rfl
      | negSucc n =>
          rw [quotient, hpos, hneg]
          rfl
  | negSucc m =>
      cases b with
      | ofNat n =>
          rw [quotient, hneg, hpos]
          rfl
      | negSucc n =>
          rw [quotient, hneg, hneg]
          rfl

namespace Value

/-- An operator with one operand. -/
def unary (op : String) (operand : Value) : Value :=
  match op, operand with
  | "!", v => .boolean !v.isTruthy
  | "-", .integer n => .integer (wrap64 (-n))
  | op, v => .failed (.unknownUnary op v.type)

/-- An operator on two integers. -/
def integerBinary (a : Int) (op : String) (b : Int) : Value :=
  match op with
  | "+" => .integer (wrap64 (a + b))
  | "-" => .integer (wrap64 (a - b))
  | "*" => .integer (wrap64 (a * b))
  | "/" => if b = 0 then .failed .divisionByZero else .integer (wrap64 (quotient a b))
  | "<" => .boolean (a < b)
  | ">" => .boolean (b < a)
  | "==" => .boolean (a == b)
  | "!=" => .boolean (a != b)
  | op => .failed (.unknownBinary .integer op .integer)

/-- An operator on two strings. -/
def stringBinary (a : String) (op : String) (b : String) : Value :=
  match op with
  | "+" => .string (a ++ b)
  | "==" => .boolean (a == b)
  | "!=" => .boolean (a != b)
  | op => .failed (.unknownBinary .string op .string)

/-- An operator on two values. -/
def binary (left : Value) (op : String) (right : Value) : Value :=
  match left, right with
  | .integer a, .integer b => integerBinary a op b
  | .string a, .string b => stringBinary a op b
  | left, right =>
      if left.type ≠ right.type then .failed (.typeMismatch left.type op right.type)
      else if op = "==" then .boolean (left.same right)
      else if op = "!=" then .boolean !left.same right
      else .failed (.unknownBinary left.type op right.type)

/-- The element of a list at a position, or the content of a map under the printed form of a key;
null when there is none. -/
def index (target position : Value) : Value :=
  match target, position with
  | .array _ elements, .integer i =>
      if 0 ≤ i then elements[i.toNat]?.getD .null else .null
  | .hash _ rows, key => ((Table.get? rows key.inspect).map Prod.snd).getD .null
  | target, _ => .failed (.notIndexable target.type)

end Value

end Scripting
