import Scripting.Value.Operator

/-!
# Arithmetic of 64-bit integers

An integer in the range of signed 64 bits is the value of a 64-bit word in two's complement.
Wrapping takes the word of an integer and reads it back (`wrap64_eq_toInt`), so that operators on
integers are operations on their words, and intermediate results need not be wrapped. Division is
stated by what it leaves over: a remainder that is smaller than the divisor and does not change the
sign of the dividend.
-/

namespace Scripting

/-- An integer is in the range of signed 64 bits. -/
def FitsWord (n : Int) : Prop :=
  -halfRange64 ≤ n ∧ n < halfRange64

instance (n : Int) : Decidable (FitsWord n) :=
  inferInstanceAs (Decidable (_ ∧ _))

/-- The 64-bit word of an integer in two's complement. -/
def word (n : Int) : BitVec 64 :=
  BitVec.ofInt 64 n

/-- `q` is the quotient of `l` and `r` rounded toward zero: what is left over is smaller than `r`
and, unless it is zero, has the sign of `l`. -/
def IsTruncatedQuotient (l r q : Int) : Prop :=
  ∃ m, l = q * r + m ∧ m.natAbs < r.natAbs ∧ (m = 0 ∨ m.sign = l.sign)

/-! ### Wrapping -/

/-- Wrapping an integer is the only way to change it by a multiple of 2^64 and come into the
range. -/
theorem eq_wrap64_iff (n m : Int) : m = wrap64 n ↔ FitsWord m ∧ m % range64 = n % range64 := by
  constructor
  · rintro rfl
    exact ⟨wrap64_mem_range n, wrap64_emod n⟩
  · rintro ⟨⟨hlow, hhigh⟩, hmod⟩
    obtain ⟨hlow', hhigh'⟩ := wrap64_mem_range n
    have hwrap := wrap64_emod n
    unfold halfRange64 at hlow hhigh hlow' hhigh'
    unfold range64 at hmod hwrap
    omega

theorem wrap64_of_fitsWord {n : Int} (h : FitsWord n) : wrap64 n = n :=
  ((eq_wrap64_iff n n).mpr ⟨h, rfl⟩).symm

/-- Integers that agree modulo 2^64 wrap to the same. -/
theorem wrap64_congr {n m : Int} (h : n % range64 = m % range64) : wrap64 n = wrap64 m :=
  (eq_wrap64_iff m (wrap64 n)).mpr ⟨wrap64_mem_range n, (wrap64_emod n).trans h⟩

theorem wrap64_add_wrap64 (a b : Int) : wrap64 (wrap64 a + wrap64 b) = wrap64 (a + b) := by
  refine wrap64_congr ?_
  rw [Int.add_emod, wrap64_emod, wrap64_emod, ← Int.add_emod]

theorem wrap64_sub_wrap64 (a b : Int) : wrap64 (wrap64 a - wrap64 b) = wrap64 (a - b) := by
  refine wrap64_congr ?_
  rw [Int.sub_emod, wrap64_emod, wrap64_emod, ← Int.sub_emod]

theorem wrap64_mul_wrap64 (a b : Int) : wrap64 (wrap64 a * wrap64 b) = wrap64 (a * b) := by
  refine wrap64_congr ?_
  rw [Int.mul_emod, wrap64_emod, wrap64_emod, ← Int.mul_emod]

/-! ### Words -/

/-- Wrapping takes the word of an integer and reads it back. -/
theorem wrap64_eq_toInt (n : Int) : wrap64 n = (word n).toInt := by
  rw [word, BitVec.toInt_ofInt, Int.bmod_def]
  unfold wrap64 halfRange64 range64
  split <;> omega

theorem toInt_word {n : Int} (h : FitsWord n) : (word n).toInt = n := by
  rw [← wrap64_eq_toInt, wrap64_of_fitsWord h]

theorem word_add (l r : Int) : word (l + r) = word l + word r :=
  BitVec.ofInt_add l r

theorem word_mul (l r : Int) : word (l * r) = word l * word r :=
  BitVec.ofInt_mul l r

theorem word_neg (n : Int) : word (-n) = -word n :=
  BitVec.ofInt_neg

theorem word_sub (l r : Int) : word (l - r) = word l - word r := by
  rw [Int.sub_eq_add_neg, word_add, word_neg, BitVec.sub_eq_add_neg]

/-! ### Quotients -/

/-- Every integer has one truncated quotient by a divisor that is not zero. -/
theorem isTruncatedQuotient_iff {l r : Int} (hr : r ≠ 0) (q : Int) :
    IsTruncatedQuotient l r q ↔ q = l.tdiv r := by
  constructor
  · rintro ⟨m, hl, hm, hsign⟩
    have hsum : m + r * q = l := by rw [hl, Int.mul_comm q r, Int.add_comm]
    rcases Int.le_total 0 l with hpos | hneg
    · have hm0 : 0 ≤ m := by
        rcases hsign with rfl | hsign
        · exact Int.le_refl 0
        · exact Int.sign_nonneg_iff.mp (hsign ▸ Int.sign_nonneg_iff.mpr hpos)
      have hunique := (Int.tdiv_tmod_unique hpos hr).mpr ⟨hsum, hm0, by omega⟩
      exact hunique.1.symm
    · have hm0 : m ≤ 0 := by
        rcases hsign with rfl | hsign
        · exact Int.le_refl 0
        · exact Int.sign_nonpos_iff.mp (hsign ▸ Int.sign_nonpos_iff.mpr hneg)
      have hunique := (Int.tdiv_tmod_unique' hneg hr).mpr ⟨hsum, by omega, hm0⟩
      exact hunique.1.symm
  · rintro rfl
    refine ⟨l.tmod r, ?_, ?_, ?_⟩
    · rw [Int.mul_comm]
      exact (Int.mul_tdiv_add_tmod l r).symm
    · rw [Int.natAbs_tmod]
      exact Nat.mod_lt _ (Int.natAbs_pos.mpr hr)
    · have hsign := Int.sign_tmod l r
      split at hsign
      · exact .inl (Int.sign_eq_zero_iff_zero.mp hsign)
      · exact .inr hsign

/-- Only the smallest integer divided by -1 has a quotient out of range, and that is one above the
largest integer. -/
theorem fitsWord_tdiv {l r : Int} (hl : FitsWord l) (hr : r ≠ 0)
    (h : ¬(l = -halfRange64 ∧ r = -1)) : FitsWord (l.tdiv r) := by
  obtain ⟨m, hsum, hm, -⟩ := (isTruncatedQuotient_iff hr _).mpr rfl
  have hle := Int.natAbs_tdiv_le_natAbs l r
  have hne : l.tdiv r ≠ halfRange64 := by
    intro hmax
    rw [hmax] at hsum
    unfold FitsWord at hl
    unfold halfRange64 at hl hsum h
    omega
  unfold FitsWord at hl ⊢
  unfold halfRange64 at hl hne ⊢
  omega

/-- Wrapping keeps a truncated quotient, but for that of the smallest integer and -1. -/
theorem wrap64_tdiv {l r : Int} (hl : FitsWord l) (hr : r ≠ 0) :
    wrap64 (l.tdiv r) = if l = -halfRange64 ∧ r = -1 then -halfRange64 else l.tdiv r := by
  split
  · next h =>
      obtain ⟨rfl, rfl⟩ := h
      rfl
  · next h => exact wrap64_of_fitsWord (fitsWord_tdiv hl hr h)

/-! ### Operators -/

/-- Integer operators compute in two's complement with 64 bits. An integer of any size wraps to the
one integer in range that agrees with it modulo 2^64, so that operands may be wrapped or not. On
integers in range, negation, sum, difference and product are the values of those of their words. A
division by zero is an error, and any other gives the quotient rounded toward zero, except that the
smallest integer divided by -1 wraps to itself. Comparisons are those of the integers. -/
theorem operators_compute_in_words :
    (∀ n m : Int, m = wrap64 n ↔ FitsWord m ∧ m % range64 = n % range64) ∧
    (∀ a b : Int, wrap64 (wrap64 a + wrap64 b) = wrap64 (a + b) ∧
      wrap64 (wrap64 a - wrap64 b) = wrap64 (a - b) ∧
      wrap64 (wrap64 a * wrap64 b) = wrap64 (a * b)) ∧
    (∀ n, FitsWord n → (word n).toInt = n ∧
      Value.unary "-" (.integer n) = .integer (-word n).toInt) ∧
    ∀ l r, FitsWord l → FitsWord r →
      Value.binary (.integer l) "+" (.integer r) = .integer (word l + word r).toInt ∧
      Value.binary (.integer l) "-" (.integer r) = .integer (word l - word r).toInt ∧
      Value.binary (.integer l) "*" (.integer r) = .integer (word l * word r).toInt ∧
      (r = 0 → Value.binary (.integer l) "/" (.integer r) = .failed .divisionByZero ∧
        RuntimeError.message .divisionByZero = "division by zero") ∧
      (r ≠ 0 → ∃ q, (∀ q', IsTruncatedQuotient l r q' ↔ q' = q) ∧
        Value.binary (.integer l) "/" (.integer r) =
          .integer (if l = -halfRange64 ∧ r = -1 then -halfRange64 else q)) ∧
      Value.binary (.integer l) "<" (.integer r) = .boolean (decide (l < r)) ∧
      Value.binary (.integer l) ">" (.integer r) = .boolean (decide (l > r)) ∧
      Value.binary (.integer l) "==" (.integer r) = .boolean (decide (l = r)) ∧
      Value.binary (.integer l) "!=" (.integer r) = .boolean (decide (l ≠ r)) := by
  refine ⟨eq_wrap64_iff, fun a b => ?_, fun n hn => ⟨toInt_word hn, ?_⟩, fun l r hl hr => ?_⟩
  · exact ⟨wrap64_add_wrap64 a b, wrap64_sub_wrap64 a b, wrap64_mul_wrap64 a b⟩
  · rw [← word_neg, ← wrap64_eq_toInt]
    rfl
  · rw [← word_add, ← word_sub, ← word_mul, ← wrap64_eq_toInt, ← wrap64_eq_toInt,
      ← wrap64_eq_toInt]
    refine ⟨rfl, rfl, rfl, ?_, fun hne => ?_, rfl, rfl, ?_, ?_⟩
    · rintro rfl
      exact ⟨rfl, rfl⟩
    · refine ⟨l.tdiv r, isTruncatedQuotient_iff hne, ?_⟩
      rw [← wrap64_tdiv hl hne, ← quotient_eq_tdiv]
      exact if_neg hne
    · exact congrArg Value.boolean (Bool.beq_eq_decide_eq l r)
    · rw [decide_not, ← Bool.beq_eq_decide_eq]
      rfl

/-- The smallest integer by -1. -/
theorem operators_compute_in_words_at_smallest :
    FitsWord (-halfRange64) ∧ FitsWord (-1) ∧
      Value.binary (.integer (-halfRange64)) "/" (.integer (-1)) = .integer (-halfRange64) ∧
      Value.binary (.integer (-halfRange64)) "*" (.integer (-1)) =
        .integer (word (-halfRange64) * word (-1)).toInt := by
  have hsmallest : FitsWord (-halfRange64) := by decide
  have hone : FitsWord (-1) := by decide
  obtain ⟨-, -, hmul, -, hdiv, -⟩ := operators_compute_in_words.2.2.2 _ _ hsmallest hone
  obtain ⟨q, -, hq⟩ := hdiv (by decide)
  exact ⟨hsmallest, hone, hq, hmul⟩

end Scripting
