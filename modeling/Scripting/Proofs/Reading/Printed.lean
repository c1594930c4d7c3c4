import Scripting.Proofs.Token.Printed

/-!
# Printed programs

The tokens of a printed form spell the tree that was printed, so reading gives it back. What is
printed without parentheses ends at a mark, or goes on with operators that bind tighter than any
that can stand in front of it.
-/

namespace Scripting

open Step Precedence

/-- How an expression is spelled by the tokens of its printed form: a tight one goes on with
whatever operators follow, a loose one ends in front of what is no operator. -/
def Binding.Spells : Binding → Expr → Prop
  | .tight, e => ∀ ⦃precedence whole mid rest⦄, precedence ≤ Precedence.unary →
      (Phrase.operators precedence e whole).Spelled mid rest →
        (Phrase.expression precedence whole).Spelled (e.printed ++ mid) rest
  | .loose, e => ∀ ⦃rest⦄, (aheadKind rest).precedence ≤ lowest →
      (Phrase.expression lowest e).Spelled (e.printed ++ rest) rest

namespace Binding.Spells

variable {e : Expr} {precedence : Nat} {rest : List Token}

/-- An operand may be followed by any operators. -/
theorem of_operand (h : ∀ rest, (Phrase.operand e).Spelled (e.printed ++ rest) rest) :
    Binding.tight.Spells e :=
  fun _ _ _ _ _ hoperators => .expression (h _) hoperators

/-- A tight expression in front of what binds no tighter. -/
theorem alone (h : Binding.tight.Spells e) (hprecedence : precedence ≤ Precedence.unary)
    (hrest : (aheadKind rest).precedence ≤ precedence) :
    (Phrase.expression precedence e).Spelled (e.printed ++ rest) rest :=
  h hprecedence (.noOperator hrest)

theorem loose (h : Binding.tight.Spells e) : Binding.loose.Spells e :=
  fun _ hrest => h.alone (by decide) hrest

/-- A tight expression with one operation behind it. -/
theorem operation {left whole : Expr} {t : Token} {mid : List Token} (h : Binding.tight.Spells left)
    (ht : lowest < t.kind.precedence)
    (hwhole : (Phrase.operation left whole).Spelled (t :: mid) rest)
    (hrest : (aheadKind rest).precedence ≤ lowest) :
    (Phrase.expression lowest whole).Spelled (left.printed ++ t :: mid) rest :=
  h (by decide) (.operator ht hwhole (.noOperator hrest))

end Binding.Spells

/-! ### Lists -/

/-- Behind the first piece of a list, each piece has a comma in front. -/
theorem intercalate_comma_cons (ts : List Token) (tss : List (List Token)) :
    [Token.comma].intercalate (ts :: tss) = ts ++ tss.flatMap (Token.comma :: ·) := by
  induction tss generalizing ts with
  | nil => rw [List.intercalate_singleton, List.flatMap_nil, List.append_nil]
  | cons us tss ih =>
      rw [List.intercalate_cons_cons, ih, List.flatMap_cons, List.append_assoc]
      rfl

/-- What stands behind a piece of a list binds no tighter than the list. -/
theorem precedence_flatMap_comma (tss : List (List Token)) {rest : List Token}
    (hrest : (aheadKind rest).precedence ≤ lowest) :
    (aheadKind (tss.flatMap (Token.comma :: ·) ++ rest)).precedence ≤ lowest := by
  cases tss with
  | nil => exact hrest
  | cons ts tss => exact Nat.le_refl _

theorem spelled_moreExpressions_printed {es : List Expr} (h : ∀ e ∈ es, Binding.loose.Spells e)
    {rest : List Token} (hrest : (aheadKind rest).precedence ≤ lowest)
    (hcomma : aheadKind rest ≠ .comma) :
    (Phrase.moreExpressions es).Spelled
      ((Expr.printedAll es).flatMap (Token.comma :: ·) ++ rest) rest := by
  induction es with
  | nil => exact .noMoreExpressions hcomma
  | cons e es ih =>
      have hes := ih fun e' he' => h e' (List.mem_cons_of_mem e he')
      rw [Expr.printedAll, List.flatMap_cons, List.append_assoc]
      exact .moreExpressions rfl
        (h e List.mem_cons_self (precedence_flatMap_comma (Expr.printedAll es) hrest)) hes

theorem spelled_expressions_printed {es : List Expr} (h : ∀ e ∈ es, Binding.loose.Spells e)
    {t : Token} (ht : t.kind.endsList = true) (rest : List Token) :
    (Phrase.expressions t.kind es).Spelled
      ([Token.comma].intercalate (Expr.printedAll es) ++ t :: rest) rest := by
  cases es with
  | nil => exact .noExpressions ht
  | cons e es =>
      have hlowest : (aheadKind (t :: rest)).precedence ≤ lowest :=
        Nat.le_of_eq (TokenKind.precedence_of_endsList ht)
      have hcomma : aheadKind (t :: rest) ≠ .comma := by
        intro hcomma
        rw [aheadKind_cons] at hcomma
        rw [hcomma] at ht
        cases ht
      have hes := spelled_moreExpressions_printed
        (fun e' he' => h e' (List.mem_cons_of_mem e he')) hlowest hcomma
      rw [Expr.printedAll, intercalate_comma_cons, List.append_assoc]
      exact .someExpressions
        (h e List.mem_cons_self (precedence_flatMap_comma (Expr.printedAll es) hlowest)) hes ht

theorem spelled_pairs_printed {pairs : List (Expr × Expr)}
    (hkeys : ∀ pair ∈ pairs, Binding.loose.Spells pair.1)
    (hvalues : ∀ pair ∈ pairs, Binding.loose.Spells pair.2) (rest : List Token) :
    (Phrase.pairs pairs).Spelled
      ([Token.comma].intercalate (Expr.printedPairs pairs) ++ .closeBrace :: rest)
      (.closeBrace :: rest) := by
  induction pairs with
  | nil => exact .noPairs (.inl rfl)
  | cons pair pairs ih =>
      obtain ⟨key, value⟩ := pair
      have hkey : Binding.loose.Spells key := hkeys _ List.mem_cons_self
      have hvalue : Binding.loose.Spells value := hvalues _ List.mem_cons_self
      have hpairs := ih (fun p hp => hkeys p (List.mem_cons_of_mem _ hp))
        fun p hp => hvalues p (List.mem_cons_of_mem _ hp)
      cases pairs with
      | nil =>
          rw [Expr.printedPairs, Expr.printedPairs, List.intercalate_singleton, List.append_assoc]
          exact .lastPair (hkey (Nat.le_refl lowest)) rfl (hvalue (Nat.le_refl lowest)) rfl
      | cons pair pairs =>
          simp only [Expr.printedPairs, List.intercalate_cons_cons, List.append_assoc,
            List.cons_append, List.nil_append] at hpairs ⊢
          exact .morePairs (hkey (Nat.le_refl lowest)) rfl (hvalue (Nat.le_refl lowest)) rfl hpairs

/-! ### Expressions -/

theorem TokenKind.precedence_le_of_isBinary {kind : TokenKind} (h : kind.isBinary = true) :
    kind.precedence ≤ Precedence.unary := by
  cases kind <;> first | decide | cases h

theorem TokenKind.precedence_le_of_isLogical {kind : TokenKind} (h : kind.isLogical = true) :
    kind.precedence ≤ Precedence.unary := by
  cases kind <;> first | decide | cases h

/-- An operator between tight operands, in parentheses. -/
theorem spelled_infix_printed {left right whole : Expr} {op : String}
    (hlowest : lowest < (TokenKind.ofOperator op).precedence)
    (hunary : (TokenKind.ofOperator op).precedence ≤ Precedence.unary)
    (hleft : Binding.tight.Spells left) (hright : Binding.tight.Spells right) (rest : List Token)
    (hwhole : ∀ {ts rest}, (Phrase.expression (TokenKind.ofOperator op).precedence right).Spelled
      ts rest → (Phrase.operation left whole).Spelled (.operator op :: ts) rest) :
    (Phrase.operand whole).Spelled
      (.openParen :: (left.printed ++ .operator op :: (right.printed ++ .closeParen :: rest)))
      rest := by
  have hclose : (aheadKind (.closeParen :: rest)).precedence ≤ lowest := Nat.le_refl _
  have hright := hright.alone hunary (Nat.le_trans hclose (Nat.le_of_lt hlowest))
  exact .inParens (hleft.operation hlowest (hwhole hright) hclose)

/-- An expression that prints as it is read is spelled by the tokens of its printed form. -/
theorem Expr.Printable.spells {binding : Binding} {e : Expr} (h : e.Printable binding) :
    binding.Spells e := by
  induction h with
  | @ident name h =>
      have hname : Token.word name = .name name := by
        rw [Token.word, h.2]
        rfl
      refine .of_operand fun rest => ?_
      rw [Expr.printed, hname]
      exact .leaf rfl
  | int h =>
      obtain ⟨-, hdigits, hlength, rfl, hvalue⟩ := h
      exact .of_operand fun rest => .leaf (leaf_of_int hdigits hlength hvalue)
  | bool value => cases value <;> exact .of_operand fun rest => .leaf rfl
  | null => exact .of_operand fun rest => .leaf rfl
  | this => exact .of_operand fun rest => .leaf rfl
  | super => exact .of_operand fun rest => .leaf rfl
  | array _ helements =>
      refine .of_operand fun rest => ?_
      simp only [Expr.printed, List.cons_append, List.append_assoc, List.nil_append]
      exact .array rfl (spelled_expressions_printed helements (t := .closeBracket) rfl rest)
  | map _ _ hkeys hvalues =>
      refine .of_operand fun rest => ?_
      simp only [Expr.printed, List.cons_append, List.append_assoc, List.nil_append]
      exact .map rfl (spelled_pairs_printed hkeys hvalues rest) rfl
  | @index target position _ _ htarget hposition =>
      refine .of_operand fun rest => ?_
      simp only [Expr.printed, List.cons_append, List.append_assoc, List.nil_append]
      have hend : (aheadKind (.closeBracket :: .closeParen :: rest)).precedence ≤ lowest :=
        Nat.le_refl _
      have hindex : (Phrase.operation target (.index target position)).Spelled _ _ :=
        .index (t := .openBracket) rfl (hposition hend) rfl
      exact .inParens (htarget.operation (by decide) hindex (Nat.le_refl lowest))
  | @property object name _ hname hobject =>
      intro precedence whole mid rest hprecedence hoperators
      have hproperty : (Phrase.operation object (.property object name)).Spelled
          (.dot :: .word name :: mid) mid := .property (u := .word name) rfl hname.2
      simp only [Expr.printed, List.append_assoc, List.cons_append, List.nil_append]
      exact hobject hprecedence (.operator (Nat.lt_succ_of_le hprecedence) hproperty hoperators)
  | @new className args hname _ hargs =>
      refine .of_operand fun rest => ?_
      simp only [Expr.printed, List.cons_append, List.append_assoc, List.nil_append]
      have hargs := spelled_expressions_printed hargs (t := .closeParen) rfl rest
      exact .new (u := .word className) rfl hname.2 rfl hargs
  | @unary op operand hop _ hoperand =>
      refine .of_operand fun rest => ?_
      simp only [Expr.printed, List.cons_append, List.append_assoc, List.nil_append]
      have hclose : (aheadKind (.closeParen :: rest)).precedence ≤ Precedence.unary := by
        rw [aheadKind_cons]
        decide
      have hunary : (Phrase.operand (.unary op operand)).Spelled _ _ :=
        .unary (t := .operator op) (TokenKind.isUnary_ofOperator hop)
          (hoperand.alone (Nat.le_refl _) hclose)
      exact .inParens (hunary.expression_of_operand (Nat.le_refl lowest))
  | @binary op left right hop _ _ hleft hright =>
      have hbinary := TokenKind.isBinary_ofOperator hop
      refine .of_operand fun rest => ?_
      simp only [Expr.printed, List.cons_append, List.append_assoc, List.nil_append]
      exact spelled_infix_printed (TokenKind.lowest_lt_of_isBinary hbinary)
        (TokenKind.precedence_le_of_isBinary hbinary) hleft hright rest
        fun h => .binary (t := .operator op) hbinary h
  | @logical op left right hop _ _ hleft hright =>
      have hlogical := TokenKind.isLogical_ofOperator hop
      refine .of_operand fun rest => ?_
      simp only [Expr.printed, List.cons_append, List.append_assoc, List.nil_append]
      exact spelled_infix_printed (TokenKind.lowest_lt_of_isLogical hlogical)
        (TokenKind.precedence_le_of_isLogical hlogical) hleft hright rest
        fun h => .logical (t := .operator op) hlogical h
  | @call callee args _ _ hcallee hargs =>
      intro precedence whole mid rest hprecedence hoperators
      have hcall : (Phrase.operation callee (.call callee args)).Spelled _ _ :=
        .call (t := .openParen) rfl (spelled_expressions_printed hargs (t := .closeParen) rfl mid)
      simp only [Expr.printed, List.append_assoc, List.cons_append, List.nil_append]
      exact hcallee hprecedence (.operator (Nat.lt_succ_of_le hprecedence) hcall hoperators)
  | print _ hargs =>
      refine .of_operand fun rest => ?_
      simp only [Expr.printed, List.cons_append, List.append_assoc, List.nil_append]
      exact .print (t := .word "print") rfl rfl
        (spelled_expressions_printed hargs (t := .closeParen) rfl rest)
  | ofTight _ h => exact h.loose
  | @assign target value hassignable _ _ htarget hvalue =>
      intro rest hrest
      have hassign : (Phrase.operation target (.assign target value)).Spelled _ _ :=
        .assign (t := .equals) rfl hassignable (hvalue hrest)
      simp only [Expr.printed, List.append_assoc, List.cons_append]
      exact htarget.operation (by decide) hassign hrest

/-! ### Programs -/

theorem Stmt.Printable.spelled {s : Stmt} (h : s.Printable) (rest : List Token) :
    (Phrase.statement (some s)).Spelled (s.printed ++ rest) rest := by
  have hend : Phrase.semicolon.Spelled (.semicolon :: rest) rest := .semicolon rfl
  have hahead : (aheadKind (.semicolon :: rest)).precedence ≤ lowest := Nat.le_refl _
  cases h with
  | @letIn name value hname hvalue =>
      simp only [Stmt.printed, List.cons_append, List.append_assoc, List.nil_append]
      exact .letIn (u := .word name) (v := .equals) rfl hname.2 rfl (hvalue.spells hahead) hend
  | bareReturn =>
      rw [Stmt.printed, Expr.printed]
      exact .bareReturn rfl (.inl rfl) hend
  | ret hvalue =>
      simp only [Stmt.printed, List.cons_append, List.append_assoc, List.nil_append]
      exact .ret rfl (hvalue.spells hahead) hend

theorem Block.Printable.spelled {b : Block} (h : b.Printable) {rest : List Token}
    (hrest : aheadKind rest = .eof) :
    (Phrase.program b).Spelled (b.printed ++ rest) rest := by
  induction h with
  | nil => exact .emptyProgram hrest
  | @expr e h =>
      have hahead : (aheadKind rest).precedence ≤ lowest := by
        rw [hrest]
        decide
      have hsemicolon : aheadKind rest ≠ .semicolon := by
        rw [hrest]
        decide
      have hstatement : (Phrase.statement (some (.expr e))).Spelled (e.printed ++ rest) rest :=
        .expr (.expressionStatement (h.spells hahead) (.noSemicolon hsemicolon))
      rw [Block.printed, List.flatMap_singleton, Stmt.printed]
      exact .program hstatement (.emptyProgram hrest)
  | @cons b s hs _ ih =>
      have hprinted : Block.printed (s :: b) = s.printed ++ Block.printed b := List.flatMap_cons
      rw [hprinted, List.append_assoc]
      exact .program (hs.spelled (b.printed ++ rest)) ih

/-- Reading the printed form of a program that prints as it is read gives the program back, without
a fault. -/
theorem printed_programs_are_read {b : Block} (h : b.Printable) :
    Reading.ofText (Block.render b) = ⟨b, []⟩ := by
  rw [Reading.ofText, tokenize, ← Reading.ofTokens_bare]
  change Reading.ofTokens (bareTokens (Block.render b).toList) = _
  rw [h.lexes, bareTokens_nil]
  exact Reading.ofTokens_of_spelled (h.spelled rfl)

/-- A program with assignments in assignments, operators at several depths and an empty `return`. -/
def chainedProgram : Block :=
  [.letIn "x" (.assign (.property .this "n")
      (.assign (.ident "y") (.binary (.int 1 "01") "-" (.unary "-" (.int 2 "2"))))),
    .ret .missing,
    .ret (.call (.property (.new "A" [.map [(.assign (.ident "k") .null, .super)]]) "m")
      [.call (.ident "print") [], .bool true]),
    .expr (.index (.unary "!" (.logical .this "||" (.ident "z")))
      (.assign (.ident "i") (.array [])))]

theorem printed_programs_are_read_of_chainedProgram :
    Block.Printable chainedProgram ∧
      Block.render chainedProgram =
        "let x = this.n = y = (01 - (-2));return;" ++
          "return new A(\x7bk = null:super\x7d).m(print(), true);((!(this || z))[i = []])" ∧
      Reading.ofText (Block.render chainedProgram) = ⟨chainedProgram, []⟩ := by
  have hone : Expr.IsProper (.int 1 "01") :=
    ⟨by decide, by decide, by decide, by decide, by decide⟩
  have htwo : Expr.IsProper (.int 2 "2") :=
    ⟨by decide, by decide, by decide, by decide, by decide⟩
  have hprintable : Block.Printable chainedProgram := by
    refine .cons (.letIn (by decide) (.assign rfl (.property .this (by decide)) (.assign rfl
      (.ident (by decide)) (.ofTight (.binary (by decide) (.int hone)
        (.unary (by decide) (.int htwo))))))) ?_
    refine .cons .bareReturn (.cons (.ret (.ofTight (.call (.property (.new (by decide) ?_)
      (by decide)) ?_))) ?_)
    · refine List.forall_mem_singleton.mpr (.ofTight (.map ?_ ?_))
      · exact List.forall_mem_singleton.mpr (.assign rfl (.ident (by decide)) (.ofTight .null))
      · exact List.forall_mem_singleton.mpr (.ofTight .super)
    · refine List.forall_mem_cons.mpr ⟨.ofTight (.print (List.forall_mem_nil _)), ?_⟩
      exact List.forall_mem_singleton.mpr (.ofTight (.bool true))
    · refine .expr (.ofTight (.index (.unary (by decide) (.logical (by decide) .this
        (.ident (by decide)))) (.assign rfl (.ident (by decide)) (.ofTight (.array ?_)))))
      exact List.forall_mem_nil _
  exact ⟨hprintable, by rfl, printed_programs_are_read hprintable⟩

end Scripting
