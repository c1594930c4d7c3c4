import Scripting.Proofs.Reading.Climbing

/-!
# Conditionals with several arms

Behind an `else` an `if` is read at once, without the readers of blocks and statements that an `if`
in braces goes through. What is read is the same: a conditional with several arms has one tree,
whether each further arm is written as `else if` or inside the braces of an `else`.
-/

namespace Scripting

open Step Precedence Phrase

/-- A condition with its block. -/
structure Arm where
  condition : Expr
  block : Block

/-- The conditional that goes from arm to arm, with the block behind all of them. -/
def cascade (arm : Arm) : List Arm → Option Block → Expr
  | [], last => .cond arm.condition arm.block last
  | next :: more, last => .cond arm.condition arm.block (some [.expr (cascade next more last)])

/-- Tokens that are read as a block by themselves, up to and with its closing brace, all of them and
without a fault. -/
def IsBlock (ts : List Token) (b : Block) : Prop :=
  (Grammar.block (Grammar.fuelFor ts)).Yields ts b []

/-- A condition in parentheses and a block in braces. -/
inductive IsArm : List Token → Arm → Prop where
  | mk {t u v : Token} {ts us : List Token} {e : Expr} {b : Block} (ht : t.kind = .lparen)
      (h : IsExpression ts e) (hu : u.kind = .rparen) (hv : v.kind = .lbrace) (hb : IsBlock us b) :
      IsArm (t :: (ts ++ u :: v :: us)) ⟨e, b⟩

/-- The last block behind its `else`, or nothing. -/
inductive IsElse : List Token → Option Block → Prop where
  | none : IsElse [] none
  | some {t u : Token} {ts : List Token} {b : Block} (ht : t.kind = .elseWord)
      (hu : u.kind = .lbrace) (hb : IsBlock ts b) : IsElse (t :: u :: ts) (some b)

/-- Further arms, each behind `else if`, and the last block. -/
inductive IsElseIfs : List Token → List Arm → Option Block → Prop where
  | last {ts : List Token} {last : Option Block} (h : IsElse ts last) : IsElseIfs ts [] last
  | elseIf {t u : Token} {ts us : List Token} {arm : Arm} {more : List Arm} {last : Option Block}
      (ht : t.kind = .elseWord) (hu : u.kind = .ifWord) (harm : IsArm ts arm)
      (hmore : IsElseIfs us more last) : IsElseIfs (t :: u :: (ts ++ us)) (arm :: more) last

/-- Further arms, each an `if` in the braces of an `else`, and the last block. -/
inductive IsNestedIfs : List Token → List Arm → Option Block → Prop where
  | last {ts : List Token} {last : Option Block} (h : IsElse ts last) : IsNestedIfs ts [] last
  | nested {t u v w : Token} {ts us : List Token} {arm : Arm} {more : List Arm}
      {last : Option Block} (ht : t.kind = .elseWord) (hu : u.kind = .lbrace)
      (hv : v.kind = .ifWord) (harm : IsArm ts arm) (hmore : IsNestedIfs us more last)
      (hw : w.kind = .rbrace) :
      IsNestedIfs (t :: u :: v :: (ts ++ (us ++ [w]))) (arm :: more) last

variable {t u : Token} {ts us rest : List Token} {e : Expr} {b : Block} {arm : Arm}
  {more : List Arm} {last : Option Block}

/-- A block is spelled in front of anything. -/
theorem IsBlock.spelled_append (h : IsBlock ts b) (rest : List Token) :
    (block b).Spelled (ts ++ rest) rest := by
  obtain ⟨ts', hts, hspelled⟩ := ((Grammar.soundAt _).block h).regrow rest trivial
  rw [← hts.of_nil]
  exact hspelled

/-- What stands in front of the first `else` of a conditional. -/
theorem IsArm.spelled_append (h : IsArm ts arm) (rest : List Token) :
    ∃ t us u v mid, ts ++ rest = t :: us ∧ t.kind = .lparen ∧
      (expression lowest arm.condition).Spelled us (u :: v :: mid) ∧ u.kind = .rparen ∧
      v.kind = .lbrace ∧ (block arm.block).Spelled mid rest := by
  cases h with
  | @mk t u v ts us e b ht h hu hv hb =>
      have hcondition := h.spelled_append hu (by rfl) (by decide) (v :: (us ++ rest))
      exact ⟨t, _, u, v, _, by simp, ht, hcondition, hu, hv, hb.spelled_append rest⟩

/-- A conditional may stand alone in a block. -/
theorem spelled_block_of_conditional (h : (conditional e).Spelled ts (u :: rest))
    (ht : t.kind = .ifWord) (hu : u.kind = .rbrace) :
    (block [.expr e]).Spelled (t :: ts) rest := by
  have hoperators : (operators lowest e e).Spelled (u :: rest) (u :: rest) :=
    .noOperator (by rw [aheadKind_cons, hu]; decide)
  have hsemicolon : semicolon.Spelled (u :: rest) (u :: rest) :=
    .noSemicolon (by rw [aheadKind_cons, hu]; decide)
  have hstatement : (statement (some (.expr e))).Spelled (t :: ts) (u :: rest) :=
    .expr (.expressionStatement (.expression (.condition ht h) hoperators) hsemicolon)
  exact .block hstatement (.emptyBlock hu)

theorem IsElse.spelled (h : IsElse us last) (harm : IsArm ts arm)
    (hrest : aheadKind rest ≠ .elseWord) :
    (conditional (.cond arm.condition arm.block last)).Spelled (ts ++ (us ++ rest)) rest := by
  obtain ⟨t, us', u, v, mid, htokens, ht, hcondition, hu, hv, hblock⟩ :=
    harm.spelled_append (us ++ rest)
  rw [htokens]
  cases h with
  | none => exact .withoutElse ht hcondition hu hv hblock hrest
  | some hw hx hb => exact .withElse ht hcondition hu hv hblock hw hx (hb.spelled_append rest)

theorem IsElseIfs.spelled (h : IsElseIfs us more last) (harm : IsArm ts arm)
    (hrest : aheadKind rest ≠ .elseWord) :
    (conditional (cascade arm more last)).Spelled (ts ++ (us ++ rest)) rest := by
  induction h generalizing ts arm with
  | last h => exact h.spelled harm hrest
  | @elseIf w x ts' us next more last hw hx hnext _ ih =>
      obtain ⟨t, us', u, v, mid, htokens, ht, hcondition, hu, hv, hblock⟩ :=
        harm.spelled_append (w :: x :: (ts' ++ (us ++ rest)))
      rw [List.cons_append, List.cons_append, List.append_assoc, htokens]
      exact .elseIf ht hcondition hu hv hblock hw hx (ih hnext)

theorem IsNestedIfs.spelled (h : IsNestedIfs us more last) (harm : IsArm ts arm)
    (hrest : aheadKind rest ≠ .elseWord) :
    (conditional (cascade arm more last)).Spelled (ts ++ (us ++ rest)) rest := by
  induction h generalizing ts arm rest with
  | last h => exact h.spelled harm hrest
  | @nested w x y z ts' us next more last hw hx hy hnext _ hz ih =>
      obtain ⟨t, us', u, v, mid, htokens, ht, hcondition, hu, hv, hblock⟩ :=
        harm.spelled_append (w :: x :: y :: (ts' ++ (us ++ z :: rest)))
      have hinner : (conditional (cascade next more last)).Spelled (ts' ++ (us ++ z :: rest))
          (z :: rest) :=
        ih hnext (by rw [aheadKind_cons, hz]; decide)
      rw [List.cons_append, List.cons_append, List.cons_append, List.append_assoc,
        List.append_assoc, List.singleton_append, htokens]
      exact .withElse ht hcondition hu hv hblock hw hx (spelled_block_of_conditional hinner hy hz)

end Scripting
