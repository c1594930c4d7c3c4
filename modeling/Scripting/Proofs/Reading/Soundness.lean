import Scripting.Reading
import Scripting.Proofs.Reading.Phrase
import Scripting.Proofs.Reading.Yields

/-!
# What is read is spelled

Each grammar function, when it records no fault, has read the phrase that it gives: the tokens that
it took spell it. This is shown for all functions together by induction on the fuel. Fuel that runs
out is a fault, so there is nothing to show for it; a function that may give `none` never does so
without a fault.
-/

namespace Scripting

open Step Precedence

namespace Grammar

variable {fuel precedence : Nat} {close : TokenKind} {t : Token} {ts rest : List Token}
  {e left whole : Expr} {es : List Expr} {b : Block}

/-- With an amount of fuel, whatever a grammar function reads without a fault is a phrase. -/
structure SoundAt (fuel : Nat) : Prop where
  expression : ∀ {precedence ts e rest}, lowest ≤ precedence →
    (expression fuel precedence).Yields ts e rest →
      (Phrase.expression precedence e).Spelled ts rest
  operators : ∀ {precedence ts left whole rest}, lowest ≤ precedence →
    (operators fuel precedence left).Yields ts whole rest →
      (Phrase.operators precedence left whole).Spelled ts rest
  operand : ∀ {t ts e rest}, t.kind.opensOperand = true → (operand fuel t).Yields ts e rest →
    (Phrase.operand e).Spelled (t :: ts) rest
  operation : ∀ {left t ts whole rest}, lowest < t.kind.precedence →
    (operation fuel left t).Yields ts whole rest →
      (Phrase.operation left whole).Spelled (t :: ts) rest
  expressions : ∀ {close ts es rest}, close.endsList = true →
    (expressions fuel close).Yields ts es rest → (Phrase.expressions close es).Spelled ts rest
  moreExpressions : ∀ {ts es rest}, (moreExpressions fuel).Yields ts es rest →
    (Phrase.moreExpressions es).Spelled ts rest
  pairs : ∀ {ts found rest}, (pairs fuel).Yields ts found rest →
    ∃ ps, found = some ps ∧ (Phrase.pairs ps).Spelled ts rest
  conditional : ∀ {ts e rest}, (conditional fuel).Yields ts e rest →
    (Phrase.conditional e).Spelled ts rest
  functionLiteral : ∀ {ts found rest}, (functionLiteral fuel).Yields ts found rest →
    ∃ literal, found = some literal ∧ (Phrase.functionLiteral literal).Spelled ts rest
  block : ∀ {ts b rest}, (block fuel).Yields ts b rest → (Phrase.block b).Spelled ts rest
  statement : ∀ {ts first rest}, (statement fuel).Yields ts first rest →
    (Phrase.statement first).Spelled ts rest
  expressionStatement : ∀ {ts found rest}, (expressionStatement fuel).Yields ts found rest →
    ∃ s, found = some s ∧ (Phrase.expressionStatement s).Spelled ts rest
  classDefinition : ∀ {ts found rest}, (classDefinition fuel).Yields ts found rest →
    ∃ s, found = some s ∧ (Phrase.classDefinition s).Spelled ts rest
  methods : ∀ {ts found rest}, (methods fuel).Yields ts found rest →
    ∃ ms, found = some ms ∧ (Phrase.methods ms).Spelled ts rest
  method : ∀ {ts found rest}, (method fuel).Yields ts found rest →
    ∃ name literal, found = some (name, literal) ∧ (Phrase.method name literal).Spelled ts rest

theorem SoundAt.zero : SoundAt 0 where
  expression _ h := absurd h not_yields_outOfFuel
  operators _ h := absurd h not_yields_outOfFuel
  operand _ h := absurd h not_yields_outOfFuel
  operation _ h := absurd h not_yields_outOfFuel
  expressions _ h := absurd h not_yields_outOfFuel
  moreExpressions h := absurd h not_yields_outOfFuel
  pairs h := absurd h not_yields_outOfFuel
  conditional h := absurd h not_yields_outOfFuel
  functionLiteral h := absurd h not_yields_outOfFuel
  block h := absurd h not_yields_outOfFuel
  statement h := absurd h not_yields_outOfFuel
  expressionStatement h := absurd h not_yields_outOfFuel
  classDefinition h := absurd h not_yields_outOfFuel
  methods h := absurd h not_yields_outOfFuel
  method h := absurd h not_yields_outOfFuel

namespace SoundAt

theorem expression_succ (h : SoundAt fuel) (hp : lowest ≤ precedence)
    (hy : (Grammar.expression (fuel + 1) precedence).Yields ts e rest) :
    (Phrase.expression precedence e).Spelled ts rest := by
  rw [Grammar.expression, yields_bind] at hy
  rcases hy with ⟨t, mid, ht, hy⟩
  by_cases hopens : t.kind.opensOperand = true
  · rw [if_pos hopens, yields_bind] at hy
    rcases hy with ⟨left, mid', hleft, hwhole⟩
    rcases yields_next.mp ht with rfl | ⟨-, -, rfl⟩
    · exact .expression (h.operand hopens hleft) (h.operators hp hwhole)
    · cases hopens
  · rw [if_neg hopens] at hy
    exact absurd hy not_yields_report_bind

theorem operators_succ (h : SoundAt fuel) (hp : lowest ≤ precedence)
    (hy : (Grammar.operators (fuel + 1) precedence left).Yields ts whole rest) :
    (Phrase.operators precedence left whole).Spelled ts rest := by
  rw [Grammar.operators, yields_peek_bind] at hy
  by_cases hahead : precedence < (aheadKind ts).precedence
  · rw [if_pos hahead] at hy
    simp only [yields_bind] at hy
    rcases hy with ⟨t, us, ht, inner, mid, hinner, hwhole⟩
    rcases yields_next.mp ht with rfl | ⟨rfl, -, -⟩
    · have hinner := h.operation (Nat.lt_of_le_of_lt hp hahead) hinner
      exact .operator hahead hinner (h.operators hp hwhole)
    · exact absurd hahead (Nat.not_lt_of_le hp)
  · rw [if_neg hahead, yields_pure] at hy
    rcases hy with ⟨rfl, rfl⟩
    exact .noOperator (Nat.le_of_not_lt hahead)

theorem operand_leaf (hleaf : t.leaf? = some left) (hy : left = e ∧ ts = rest) :
    (Phrase.operand e).Spelled (t :: ts) rest := by
  rcases hy with ⟨rfl, rfl⟩
  exact .leaf hleaf

theorem integer_spelled (ht : t.kind = .int) (hy : (integer t.literal).Yields ts e rest) :
    (Phrase.operand e).Spelled (t :: ts) rest := by
  rw [integer] at hy
  by_cases hlong : digitLimit < (literalDigits t.literal).length
  · rw [if_pos hlong] at hy
    exact absurd hy not_yields_report_bind
  · rw [if_neg hlong] at hy
    by_cases hlarge : largestInteger < literalValue t.literal
    · rw [if_pos hlarge] at hy
      exact absurd hy not_yields_report_bind
    · rw [if_neg hlarge, yields_pure] at hy
      refine operand_leaf ?_ hy
      rw [Token.leaf?, ht]
      exact if_pos ⟨Nat.le_of_not_lt hlong, Int.not_lt.mp hlarge⟩

theorem operand_succ (h : SoundAt fuel) (ht : t.kind.opensOperand = true)
    (hy : (Grammar.operand (fuel + 1) t).Yields ts e rest) :
    (Phrase.operand e).Spelled (t :: ts) rest := by
  have hlowest : lowest ≤ lowest := Nat.le_refl _
  have hunary : lowest ≤ Precedence.unary := by decide
  rw [Grammar.operand] at hy
  split at hy
  case h_1 hk => exact operand_leaf (by rw [Token.leaf?, hk]) (yields_pure.mp hy)
  case h_2 hk => exact integer_spelled hk hy
  case h_3 hk => exact operand_leaf (by rw [Token.leaf?, hk]) (yields_pure.mp hy)
  case h_4 hk => exact operand_leaf (by rw [Token.leaf?, hk]) (yields_pure.mp hy)
  case h_5 hk => exact operand_leaf (by rw [Token.leaf?, hk]) (yields_pure.mp hy)
  case h_6 hk => exact operand_leaf (by rw [Token.leaf?, hk]) (yields_pure.mp hy)
  case h_7 hk => exact operand_leaf (by rw [Token.leaf?, hk]) (yields_pure.mp hy)
  case h_8 hk => exact operand_leaf (by rw [Token.leaf?, hk]) (yields_pure.mp hy)
  case h_9 hk =>
    simp only [yields_bind, yields_pure] at hy
    rcases hy with ⟨operand, _, hoperand, rfl, rfl⟩
    exact .unary (by rw [hk]; rfl) (h.expression hunary hoperand)
  case h_10 hk =>
    simp only [yields_bind, yields_pure] at hy
    rcases hy with ⟨operand, _, hoperand, rfl, rfl⟩
    exact .unary (by rw [hk]; rfl) (h.expression hunary hoperand)
  case h_11 hk =>
    simp only [yields_bind, yields_expect .rparen rfl, yields_pure] at hy
    rcases hy with ⟨inner, _, hinner, u, _, rfl, hu, rfl, rfl⟩
    exact .grouped hk (h.expression hlowest hinner) hu
  case h_12 hk => exact .condition hk (h.conditional hy)
  case h_13 hk =>
    simp only [yields_bind, yields_pure] at hy
    rcases hy with ⟨found, _, hfound, rfl, rfl⟩
    rcases h.functionLiteral hfound with ⟨literal, rfl, hliteral⟩
    exact .function hk hliteral
  case h_14 hk =>
    simp only [yields_expect .lparen rfl, yields_bind, yields_pure] at hy
    rcases hy with ⟨u, us, rfl, hu, es, _, hes, rfl, rfl⟩
    exact .print hk hu (h.expressions rfl hes)
  case h_15 hk =>
    simp only [yields_bind, yields_pure] at hy
    rcases hy with ⟨es, _, hes, rfl, rfl⟩
    exact .array hk (h.expressions rfl hes)
  case h_16 hk =>
    simp only [yields_bind] at hy
    rcases hy with ⟨found, mid, hfound, hy⟩
    rcases h.pairs hfound with ⟨ps, rfl, hps⟩
    simp only [yields_expect .rbrace rfl, yields_pure] at hy
    rcases hy with ⟨u, _, rfl, hu, rfl, rfl⟩
    exact .map hk hps hu
  case h_17 hk =>
    simp only [yields_expect .ident rfl, yields_expect .lparen rfl, yields_bind,
      yields_pure] at hy
    rcases hy with ⟨u, _, rfl, hu, v, us, rfl, hv, es, _, hes, rfl, rfl⟩
    exact .new hk hu hv (h.expressions rfl hes)
  case h_18 =>
    cases hk : t.kind <;> simp_all [TokenKind.opensOperand]

theorem operation_succ (h : SoundAt fuel) (ht : lowest < t.kind.precedence)
    (hy : (Grammar.operation (fuel + 1) left t).Yields ts whole rest) :
    (Phrase.operation left whole).Spelled (t :: ts) rest := by
  have hlowest : lowest ≤ lowest := Nat.le_refl _
  have hprecedence : lowest ≤ t.kind.precedence := Nat.le_of_lt ht
  rw [Grammar.operation] at hy
  split at hy
  case h_1 hk =>
    simp only [yields_bind, yields_pure] at hy
    rcases hy with ⟨right, _, hright, rfl, rfl⟩
    exact .logical (by rw [hk]; rfl) (h.expression hprecedence hright)
  case h_2 hk =>
    simp only [yields_bind, yields_pure] at hy
    rcases hy with ⟨right, _, hright, rfl, rfl⟩
    exact .logical (by rw [hk]; rfl) (h.expression hprecedence hright)
  case h_3 hk =>
    simp only [yields_bind, yields_pure] at hy
    rcases hy with ⟨es, _, hes, rfl, rfl⟩
    exact .call hk (h.expressions rfl hes)
  case h_4 hk =>
    simp only [yields_bind, yields_expect .rbracket rfl, yields_pure] at hy
    rcases hy with ⟨position, _, hposition, u, _, rfl, hu, rfl, rfl⟩
    exact .index hk (h.expression hlowest hposition) hu
  case h_5 hk =>
    simp only [yields_expect .ident rfl, yields_pure] at hy
    rcases hy with ⟨u, _, rfl, hu, rfl, rfl⟩
    exact .property hk hu
  case h_6 hk =>
    by_cases hleft : left.isAssignable = true
    · simp only [if_pos hleft, yields_bind, yields_pure] at hy
      rcases hy with ⟨value, _, hvalue, rfl, rfl⟩
      exact .assign hk hleft (h.expression hlowest hvalue)
    · rw [if_neg hleft] at hy
      exact absurd hy not_yields_report_bind
  case h_7 =>
    simp only [yields_bind, yields_pure] at hy
    rcases hy with ⟨right, _, hright, rfl, rfl⟩
    refine .binary ?_ (h.expression hprecedence hright)
    cases hk : t.kind <;> simp_all [TokenKind.isBinary, TokenKind.precedence]

theorem expressions_succ (h : SoundAt fuel) (hclose : close.endsList = true)
    (hy : (Grammar.expressions (fuel + 1) close).Yields ts es rest) :
    (Phrase.expressions close es).Spelled ts rest := by
  have heof : (close != .eof) = true := by
    rw [bne_iff_ne]
    rintro rfl
    cases hclose
  rw [Grammar.expressions, yields_peek_bind] at hy
  by_cases hahead : aheadKind ts = close
  · simp only [if_pos hahead, yields_next_bind hahead heof, yields_pure] at hy
    rcases hy with ⟨t, _, rfl, rfl, rfl, rfl⟩
    exact .noExpressions hclose
  · simp only [if_neg hahead, yields_bind, yields_expect close heof, yields_pure] at hy
    rcases hy with ⟨first, _, hfirst, more, _, hmore, _, _, ⟨t, _, rfl, ht, -, rfl⟩, rfl, rfl⟩
    have hfirst := h.expression (Nat.le_refl _) hfirst
    subst ht
    exact .someExpressions hfirst (h.moreExpressions hmore) hclose

theorem moreExpressions_succ (h : SoundAt fuel)
    (hy : (Grammar.moreExpressions (fuel + 1)).Yields ts es rest) :
    (Phrase.moreExpressions es).Spelled ts rest := by
  rw [Grammar.moreExpressions, yields_peek_bind] at hy
  by_cases hahead : aheadKind ts = .comma
  · rw [if_pos hahead, yields_next_bind hahead rfl] at hy
    simp only [yields_bind, yields_pure] at hy
    rcases hy with ⟨t, _, rfl, ht, first, _, hfirst, more, _, hmore, rfl, rfl⟩
    exact .moreExpressions ht (h.expression (Nat.le_refl _) hfirst) (h.moreExpressions hmore)
  · rw [if_neg hahead, yields_pure] at hy
    rcases hy with ⟨rfl, rfl⟩
    exact .noMoreExpressions hahead

theorem pairs_succ (h : SoundAt fuel)
    {found : Option (List (Expr × Expr))} (hy : (Grammar.pairs (fuel + 1)).Yields ts found rest) :
    ∃ ps, found = some ps ∧ (Phrase.pairs ps).Spelled ts rest := by
  rw [Grammar.pairs, yields_peek_bind] at hy
  by_cases hahead : aheadKind ts = .rbrace ∨ aheadKind ts = .eof
  · rw [if_pos hahead, yields_pure] at hy
    rcases hy with ⟨rfl, rfl⟩
    exact ⟨[], rfl, .noPairs hahead⟩
  · simp only [if_neg hahead, yields_expect .colon rfl, ↓yields_peek_bind, yields_bind] at hy
    rcases hy with ⟨key, _, hkey, t, _, rfl, ht, value, mid, hvalue, hy⟩
    have hkey := h.expression (Nat.le_refl _) hkey
    have hvalue := h.expression (Nat.le_refl _) hvalue
    by_cases hend : aheadKind mid = .rbrace
    · rw [if_pos hend, yields_pure] at hy
      rcases hy with ⟨rfl, rfl⟩
      exact ⟨_, rfl, .lastPair hkey ht hvalue hend⟩
    · simp only [if_neg hend, yields_expect .comma rfl, yields_bind, yields_pure] at hy
      rcases hy with ⟨u, _, rfl, hu, found, _, hfound, rfl, rfl⟩
      rcases h.pairs hfound with ⟨ps, rfl, hps⟩
      exact ⟨_, rfl, .morePairs hkey ht hvalue hu hps⟩

theorem conditional_succ (h : SoundAt fuel)
    (hy : (Grammar.conditional (fuel + 1)).Yields ts e rest) :
    (Phrase.conditional e).Spelled ts rest := by
  rw [Grammar.conditional] at hy
  simp only [yields_expect .lparen rfl, yields_expect .rparen rfl,
    yields_expect .lbrace rfl, ↓yields_peek_bind, yields_bind] at hy
  rcases hy with
    ⟨t, ts, rfl, ht, condition, _, hcondition, u, _, rfl, hu, v, _, rfl, hv, b, mid, hb, hy⟩
  have hcondition := h.expression (Nat.le_refl _) hcondition
  have hb := h.block hb
  by_cases helse : aheadKind mid = .elseWord
  · rw [if_pos helse, yields_next_bind helse rfl] at hy
    rcases hy with ⟨w, us, rfl, hw, hy⟩
    rw [yields_peek_bind] at hy
    by_cases hif : aheadKind us = .ifWord
    · rw [if_pos hif, yields_next_bind hif rfl] at hy
      simp only [yields_bind, yields_pure] at hy
      rcases hy with ⟨x, us, rfl, hx, nested, _, hnested, rfl, rfl⟩
      exact .elseIf ht hcondition hu hv hb hw hx (h.conditional hnested)
    · simp only [if_neg hif, yields_expect .lbrace rfl, yields_bind, yields_pure] at hy
      rcases hy with ⟨x, us, rfl, hx, alternative, _, halternative, rfl, rfl⟩
      exact .withElse ht hcondition hu hv hb hw hx (h.block halternative)
  · rw [if_neg helse, yields_pure] at hy
    rcases hy with ⟨rfl, rfl⟩
    exact .withoutElse ht hcondition hu hv hb helse

theorem moreParameters_spelled {found : Option (List String)}
    (hy : moreParameters.Yields ts found rest) :
    ∃ names, found = some names ∧ (Phrase.moreParameters names).Spelled ts rest := by
  induction ts using moreParameters.induct generalizing found rest with
  | case1 => cases hy
  | case2 t ht =>
      rw [Step.Yields, moreParameters, if_pos ht] at hy
      cases hy
  | case3 t ht u us hu ih =>
      rw [Step.Yields, moreParameters, if_pos ht] at hy
      simp only [if_pos hu, StepResult.mk.injEq] at hy
      rcases hy with ⟨hfound, hrest, herrors⟩
      rcases ih (yields_of_errors herrors) with ⟨names, hnames, hmore⟩
      rw [hrest] at hmore
      rw [hnames] at hfound
      exact ⟨_, hfound.symm, .moreParameters ht hu hmore⟩
  | case4 t ht u us hu =>
      rw [Step.Yields, moreParameters, if_pos ht] at hy
      simp only [if_neg hu] at hy
      cases hy
  | case5 t us hcomma ht =>
      rw [Step.Yields, moreParameters.eq_def] at hy
      simp only [if_neg hcomma, if_pos ht] at hy
      cases hy
      exact ⟨[], rfl, .noMoreParameters ht⟩
  | case6 t us hcomma ht =>
      rw [Step.Yields, moreParameters.eq_def] at hy
      simp only [if_neg hcomma, if_neg ht] at hy
      cases hy

theorem parameters_spelled {found : Option (List String)}
    (hy : Grammar.parameters.Yields ts found rest) :
    ∃ names, found = some names ∧ (Phrase.parameters names).Spelled ts rest := by
  rw [Grammar.parameters, yields_peek_bind] at hy
  by_cases hahead : aheadKind ts = .rparen
  · rw [if_pos hahead, yields_next_bind hahead rfl] at hy
    rcases hy with ⟨t, _, rfl, ht, hy⟩
    rcases yields_pure.mp hy with ⟨rfl, rfl⟩
    exact ⟨[], rfl, .noParameters ht⟩
  · simp only [if_neg hahead, yields_expect .ident rfl, yields_bind, yields_pure] at hy
    rcases hy with ⟨t, _, rfl, ht, found, _, hfound, rfl, rfl⟩
    rcases moreParameters_spelled hfound with ⟨names, rfl, hnames⟩
    exact ⟨_, rfl, .someParameters ht hnames⟩

theorem functionLiteral_succ (h : SoundAt fuel) {found : Option FunctionLiteral}
    (hy : (Grammar.functionLiteral (fuel + 1)).Yields ts found rest) :
    ∃ literal, found = some literal ∧ (Phrase.functionLiteral literal).Spelled ts rest := by
  rw [Grammar.functionLiteral] at hy
  simp only [yields_expect .lparen rfl, yields_bind] at hy
  rcases hy with ⟨t, _, rfl, ht, found, mid, hfound, hy⟩
  rcases parameters_spelled hfound with ⟨names, rfl, hnames⟩
  simp only [yields_expect .lbrace rfl, yields_bind, yields_pure] at hy
  rcases hy with ⟨u, _, rfl, hu, b, _, hb, rfl, rfl⟩
  exact ⟨_, rfl, .functionLiteral ht hnames hu (h.block hb)⟩

theorem block_succ (h : SoundAt fuel) (hy : (Grammar.block (fuel + 1)).Yields ts b rest) :
    (Phrase.block b).Spelled ts rest := by
  rw [Grammar.block, yields_peek_bind] at hy
  by_cases hbrace : aheadKind ts = .rbrace
  · rw [if_pos hbrace, yields_next_bind hbrace rfl] at hy
    rcases hy with ⟨t, _, rfl, ht, hy⟩
    rcases yields_pure.mp hy with ⟨rfl, rfl⟩
    exact .emptyBlock ht
  · by_cases hend : aheadKind ts = .eof
    · rw [if_neg hbrace, if_pos hend] at hy
      exact absurd hy not_yields_report_bind
    · simp only [if_neg hbrace, if_neg hend, yields_bind, yields_pure] at hy
      rcases hy with ⟨first, _, hfirst, more, _, hmore, rfl, rfl⟩
      exact .block (h.statement hfirst) (h.block hmore)

theorem skipSemicolon_spelled {u : Unit} (hy : skipSemicolon.Yields ts u rest) :
    Phrase.semicolon.Spelled ts rest := by
  rcases yields_skipSemicolon.mp hy with ⟨t, ht, rfl⟩ | ⟨hahead, rfl⟩
  · exact .semicolon ht
  · exact .noSemicolon hahead

theorem expressionStatement_succ (h : SoundAt fuel) {found : Option Stmt}
    (hy : (Grammar.expressionStatement (fuel + 1)).Yields ts found rest) :
    ∃ s, found = some s ∧ (Phrase.expressionStatement s).Spelled ts rest := by
  rw [Grammar.expressionStatement] at hy
  simp only [yields_bind, yields_pure] at hy
  rcases hy with ⟨e, _, he, _, _, hend, rfl, rfl⟩
  have he := h.expression (Nat.le_refl _) he
  exact ⟨_, rfl, .expressionStatement he (skipSemicolon_spelled hend)⟩

theorem expr_spelled (h : SoundAt fuel) {found : Option Stmt}
    (hy : (Grammar.expressionStatement fuel).Yields ts found rest) :
    (Phrase.statement found).Spelled ts rest := by
  rcases h.expressionStatement hy with ⟨s, rfl, hs⟩
  exact .expr hs

theorem statement_succ (h : SoundAt fuel) {first : Option Stmt}
    (hy : (Grammar.statement (fuel + 1)).Yields ts first rest) :
    (Phrase.statement first).Spelled ts rest := by
  rw [Grammar.statement, yields_peek_bind] at hy
  split at hy
  case h_1 hahead =>
    rw [yields_next_bind hahead rfl] at hy
    simp only [yields_bind, yields_expect .ident rfl, yields_expect .assign rfl,
      yields_pure] at hy
    rcases hy with ⟨t, _, rfl, ht, u, _, rfl, hu, v, _, rfl, hv, e, _, he, _, _, hend, rfl, rfl⟩
    have he := h.expression (Nat.le_refl _) he
    exact .letIn ht hu hv he (skipSemicolon_spelled hend)
  case h_2 hahead =>
    rw [yields_next_bind hahead rfl] at hy
    rcases hy with ⟨t, us, rfl, ht, hy⟩
    rw [yields_peek_bind] at hy
    by_cases hbare : aheadKind us = .semicolon ∨ aheadKind us = .rbrace
    · simp only [if_pos hbare, yields_bind, yields_pure] at hy
      rcases hy with ⟨_, _, hend, rfl, rfl⟩
      exact .bareReturn ht hbare (skipSemicolon_spelled hend)
    · simp only [if_neg hbare, yields_bind, yields_pure] at hy
      rcases hy with ⟨e, _, he, _, _, hend, rfl, rfl⟩
      have he := h.expression (Nat.le_refl _) he
      exact .ret ht he (skipSemicolon_spelled hend)
  case h_3 hahead =>
    rw [yields_next_bind hahead rfl] at hy
    rcases hy with ⟨t, us, rfl, ht, hy⟩
    rcases h.classDefinition hy with ⟨s, rfl, hs⟩
    exact .classDef ht hs
  case h_4 hahead =>
    rw [yields_next_bind hahead rfl] at hy
    rcases hy with ⟨t, _, rfl, ht, hy⟩
    rcases yields_pure.mp hy with ⟨rfl, rfl⟩
    exact .emptyStatement ht
  case h_5 hahead =>
    rw [yields_peekSecond_bind] at hy
    by_cases hsecond : aheadKind ts.tail = .ident
    · rw [if_pos hsecond, yields_next_bind hahead rfl] at hy
      rcases hy with ⟨t, us, rfl, ht, hy⟩
      rw [List.tail_cons] at hsecond
      rw [yields_next_bind hsecond rfl] at hy
      rcases hy with ⟨u, _, rfl, hu, hy⟩
      rcases yields_bind.mp hy with ⟨found, _, hfound, hy⟩
      rcases h.functionLiteral hfound with ⟨literal, rfl, hliteral⟩
      simp only [yields_bind, yields_pure] at hy
      rcases hy with ⟨_, _, hend, rfl, rfl⟩
      exact .namedFunction ht hu hliteral (skipSemicolon_spelled hend)
    · rw [if_neg hsecond] at hy
      exact expr_spelled h hy
  case h_6 => exact expr_spelled h hy

theorem classDefinition_succ (h : SoundAt fuel) {found : Option Stmt}
    (hy : (Grammar.classDefinition (fuel + 1)).Yields ts found rest) :
    ∃ s, found = some s ∧ (Phrase.classDefinition s).Spelled ts rest := by
  rw [Grammar.classDefinition, yields_expect .ident rfl] at hy
  rcases hy with ⟨t, us, rfl, ht, hy⟩
  rw [yields_peek_bind] at hy
  by_cases hextends : aheadKind us = .extendsWord
  · rw [if_pos hextends, yields_next_bind hextends rfl] at hy
    simp only [yields_bind, yields_expect .ident rfl, yields_expect .lbrace rfl,
      yields_pure] at hy
    rcases hy with ⟨u, _, rfl, hu, v, _, rfl, hv, w, _, rfl, hw, found, _, hfound, rfl, rfl⟩
    rcases h.methods hfound with ⟨ms, rfl, hms⟩
    exact ⟨_, rfl, .subclass ht hu hv hw hms⟩
  · simp only [if_neg hextends, yields_expect .lbrace rfl, yields_bind, yields_pure] at hy
    rcases hy with ⟨u, _, rfl, hu, found, _, hfound, rfl, rfl⟩
    rcases h.methods hfound with ⟨ms, rfl, hms⟩
    exact ⟨_, rfl, .baseClass ht hu hms⟩

theorem methods_succ (h : SoundAt fuel) {found : Option (List (String × FunctionLiteral))}
    (hy : (Grammar.methods (fuel + 1)).Yields ts found rest) :
    ∃ ms, found = some ms ∧ (Phrase.methods ms).Spelled ts rest := by
  rw [Grammar.methods, yields_bind] at hy
  rcases hy with ⟨t, mid, ht, hy⟩
  split at hy
  case h_1 hk =>
    rw [yields_pure] at hy
    rcases hy with ⟨rfl, rfl⟩
    rcases yields_next.mp ht with rfl | ⟨-, -, rfl⟩
    · exact ⟨[], rfl, .noMethods hk⟩
    · cases hk
  case h_2 => exact absurd hy not_yields_report_bind
  case h_3 hk =>
    simp only [yields_bind, yields_pure] at hy
    rcases hy with ⟨first, _, hfirst, found, _, hfound, rfl, rfl⟩
    rcases h.method hfirst with ⟨name, literal, rfl, hmethod⟩
    rcases h.methods hfound with ⟨ms, rfl, hms⟩
    rcases yields_next.mp ht with rfl | ⟨-, -, rfl⟩
    · exact ⟨_, rfl, .methods hk hmethod hms⟩
    · cases hk
  case h_4 hk =>
    rcases h.methods hy with ⟨ms, rfl, hms⟩
    rcases yields_next.mp ht with rfl | ⟨-, -, rfl⟩
    · exact ⟨ms, rfl, .strayMethods hk hms⟩
    · cases hk
  case h_5 => exact absurd hy not_yields_report_bind

theorem method_succ (h : SoundAt fuel) {found : Option (String × FunctionLiteral)}
    (hy : (Grammar.method (fuel + 1)).Yields ts found rest) :
    ∃ name literal, found = some (name, literal) ∧
      (Phrase.method name literal).Spelled ts rest := by
  rw [Grammar.method] at hy
  simp only [yields_expect .ident rfl, yields_expect .assign rfl,
    yields_expect .funcWord rfl, yields_bind] at hy
  rcases hy with ⟨t, _, rfl, ht, u, _, rfl, hu, v, _, rfl, hv, found, _, hfound, hy⟩
  rcases h.functionLiteral hfound with ⟨literal, rfl, hliteral⟩
  simp only [yields_bind, yields_pure] at hy
  rcases hy with ⟨_, _, hend, rfl, rfl⟩
  exact ⟨_, _, rfl, .method ht hu hv hliteral (skipSemicolon_spelled hend)⟩

theorem succ (h : SoundAt fuel) : SoundAt (fuel + 1) where
  expression := h.expression_succ
  operators := h.operators_succ
  operand := h.operand_succ
  operation := h.operation_succ
  expressions := h.expressions_succ
  moreExpressions := h.moreExpressions_succ
  pairs := h.pairs_succ
  conditional := h.conditional_succ
  functionLiteral := h.functionLiteral_succ
  block := h.block_succ
  statement := h.statement_succ
  expressionStatement := h.expressionStatement_succ
  classDefinition := h.classDefinition_succ
  methods := h.methods_succ
  method := h.method_succ

end SoundAt

theorem soundAt (fuel : Nat) : SoundAt fuel := by
  induction fuel with
  | zero => exact .zero
  | succ fuel ih => exact ih.succ

/-- A program that is read without a fault is spelled by the tokens up to an end token. -/
theorem program_spelled (hy : (Grammar.program fuel).Yields ts b rest) :
    (Phrase.program b).Spelled ts rest := by
  induction fuel generalizing ts b with
  | zero => exact absurd hy not_yields_outOfFuel
  | succ fuel ih =>
      rw [Grammar.program, yields_peek_bind] at hy
      by_cases hend : aheadKind ts = .eof
      · rw [if_pos hend, yields_pure] at hy
        rcases hy with ⟨rfl, rfl⟩
        exact .emptyProgram hend
      · simp only [if_neg hend, yields_bind, yields_pure] at hy
        rcases hy with ⟨first, _, hfirst, more, _, hmore, rfl, rfl⟩
        exact .program ((soundAt fuel).statement hfirst) (ih hmore)

end Grammar

/-- What is read from a token list without a fault is spelled by it. -/
theorem Reading.program_spelled {ts : List Token} (h : (Reading.ofTokens ts).errors = []) :
    ∃ rest, (Phrase.program (Reading.ofTokens ts).program).Spelled ts rest :=
  ⟨_, Grammar.program_spelled (Step.yields_of_errors h)⟩

end Scripting
