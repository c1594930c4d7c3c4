import Scripting.Proofs.Reading.Extent
import Scripting.Proofs.Reading.Soundness

/-!
# What is spelled is read

Every phrase is read by its grammar function from any tokens that begin with a spelling of it, as it
stands and without a fault, once there is fuel in proportion to the tokens. The induction follows
the spelling; the fuel that a function asks for grows with the number of tokens ahead and covers the
calls that it makes before it takes one.
-/

namespace Scripting

open Step Precedence

namespace Phrase

/-- With enough fuel for the tokens ahead the phrase is read, and `rest` is left. -/
def Read (ts rest : List Token) : Phrase → Prop
  | expression precedence e => ∀ fuel, 8 * ts.length + 2 < fuel →
      (Grammar.expression fuel precedence).Yields ts e rest
  | operators precedence left whole => ∀ fuel, 8 * ts.length + 1 < fuel →
      (Grammar.operators fuel precedence left).Yields ts whole rest
  | operand e => ∀ t us fuel, ts = t :: us → 8 * ts.length < fuel →
      (Grammar.operand fuel t).Yields us e rest
  | operation left whole => ∀ t us fuel, ts = t :: us → 8 * ts.length < fuel →
      (Grammar.operation fuel left t).Yields us whole rest
  | expressions close es => ∀ fuel, 8 * ts.length + 3 < fuel →
      (Grammar.expressions fuel close).Yields ts es rest
  | moreExpressions es => ∀ fuel, 8 * ts.length < fuel →
      (Grammar.moreExpressions fuel).Yields ts es rest
  | pairs ps => ∀ fuel, 8 * ts.length + 3 < fuel → (Grammar.pairs fuel).Yields ts (some ps) rest
  | conditional e => ∀ fuel, 8 * ts.length < fuel → (Grammar.conditional fuel).Yields ts e rest
  | parameters names => Grammar.parameters.Yields ts (some names) rest
  | moreParameters names => Grammar.moreParameters.Yields ts (some names) rest
  | functionLiteral literal => ∀ fuel, 8 * ts.length < fuel →
      (Grammar.functionLiteral fuel).Yields ts (some literal) rest
  | block b => ∀ fuel, 8 * ts.length + 5 < fuel → (Grammar.block fuel).Yields ts b rest
  | semicolon => skipSemicolon.Yields ts () rest
  | expressionStatement s => ∀ fuel, 8 * ts.length + 3 < fuel →
      (Grammar.expressionStatement fuel).Yields ts (some s) rest
  | statement s => ∀ fuel, 8 * ts.length + 4 < fuel → (Grammar.statement fuel).Yields ts s rest
  | classDefinition s => ∀ fuel, 8 * ts.length < fuel →
      (Grammar.classDefinition fuel).Yields ts (some s) rest
  | methods ms => ∀ fuel, 8 * ts.length < fuel → (Grammar.methods fuel).Yields ts (some ms) rest
  | method name literal => ∀ fuel, 8 * ts.length < fuel →
      (Grammar.method fuel).Yields ts (some (name, literal)) rest
  | program b => ∀ fuel, 8 * ts.length + 5 < fuel → (Grammar.program fuel).Yields ts b rest

variable {t u v w x : Token} {ts us mid rest : List Token} {precedence fuel : Nat}
  {e left inner whole key value : Expr} {es : List Expr} {ps : List (Expr × Expr)}
  {name : String} {names : List String} {literal : FunctionLiteral} {b alternative : Block}
  {s : Stmt} {first : Option Stmt} {ms : List (String × FunctionLiteral)}

theorem exists_fuel {k fuel : Nat} (h : k < fuel) : ∃ n, fuel = n + 1 ∧ k ≤ n :=
  ⟨fuel - 1, by omega, by omega⟩

/-- An operand may spend one unit of fuel on its first token. -/
theorem read_operand_of
    (h : ∀ n, 8 * ts.length + 7 < n → (Grammar.operand (n + 1) t).Yields ts e rest) :
    (operand e).Read (t :: ts) rest := by
  intro _ _ fuel hts hfuel
  cases hts
  obtain ⟨n, rfl, hn⟩ := exists_fuel hfuel
  rw [List.length_cons] at hn
  exact h n (by omega)

/-- An operation may spend one unit of fuel on its first token. -/
theorem read_operation_of
    (h : ∀ n, 8 * ts.length + 7 < n → (Grammar.operation (n + 1) left t).Yields ts whole rest) :
    (operation left whole).Read (t :: ts) rest := by
  intro _ _ fuel hts hfuel
  cases hts
  obtain ⟨n, rfl, hn⟩ := exists_fuel hfuel
  rw [List.length_cons] at hn
  exact h n (by omega)

/-! ### Expressions -/

theorem read_expression (hleft : (operand left).Spelled ts mid)
    (hleftRead : (operand left).Read ts mid)
    (hwhole : (operators precedence left whole).Read mid rest) :
    (expression precedence whole).Read ts rest := by
  intro fuel hfuel
  obtain ⟨n, rfl, hn⟩ := exists_fuel hfuel
  have hlt := hleft.length_lt_of_operand
  obtain ⟨hopens, -⟩ := hleft.begins
  cases ts with
  | nil => cases hopens
  | cons t us =>
      rw [Grammar.expression]
      apply Yields.bind_next
      rw [aheadKind_cons] at hopens
      rw [if_pos hopens]
      exact (hleftRead t us n rfl (by omega)).bind (hwhole n (by omega))

theorem read_noOperator (h : (aheadKind rest).precedence ≤ precedence) :
    (operators precedence left left).Read rest rest := by
  intro fuel hfuel
  obtain ⟨n, rfl, -⟩ := exists_fuel hfuel
  rw [Grammar.operators]
  apply Yields.bind_peek
  rw [if_neg (Nat.not_lt_of_le h)]
  exact .pure _ _

theorem read_operator (h : precedence < t.kind.precedence)
    (hinner : (operation left inner).Spelled (t :: ts) mid)
    (hinnerRead : (operation left inner).Read (t :: ts) mid)
    (hwhole : (operators precedence inner whole).Read mid rest) :
    (operators precedence left whole).Read (t :: ts) rest := by
  intro fuel hfuel
  obtain ⟨n, rfl, hn⟩ := exists_fuel hfuel
  have hlt := hinner.length_lt_of_operation
  rw [Grammar.operators]
  apply Yields.bind_peek
  rw [aheadKind_cons, if_pos h]
  apply Yields.bind_next
  exact (hinnerRead t ts n rfl (by omega)).bind (hwhole n (by omega))

theorem integer_yields {literal : String} (hlength : (literalDigits literal).length ≤ digitLimit)
    (hvalue : literalValue literal ≤ largestInteger) :
    (Grammar.integer literal).Yields rest (.int (literalValue literal) literal) rest := by
  rw [Grammar.integer]
  simp only [if_neg (Nat.not_lt_of_le hlength), if_neg (Int.not_lt.mpr hvalue)]
  exact .pure _ _

theorem read_leaf (h : t.leaf? = some e) : (operand e).Read (t :: rest) rest := by
  apply read_operand_of
  intro n _
  rw [Grammar.operand]
  cases hk : t.kind <;> simp only [Token.leaf?, hk, reduceCtorEq, Option.some.injEq] at h
  case int =>
    split at h
    · next hlimits =>
        cases h
        exact integer_yields hlimits.1 hlimits.2
    · cases h
  all_goals
    subst h
    exact .pure _ _

theorem read_unary (ht : t.kind.isUnary = true)
    (h : (expression Precedence.unary e).Read ts rest) :
    (operand (.unary t.literal e)).Read (t :: ts) rest := by
  apply read_operand_of
  intro n hn
  have hoperand := Yields.map (g := fun e => Expr.unary t.literal e) (h n (by omega))
  rw [Grammar.operand]
  cases hk : t.kind <;> simp only [TokenKind.isUnary, hk, Bool.false_eq_true] at ht
  case minus => exact hoperand
  case bang => exact hoperand

theorem read_grouped (ht : t.kind = .lparen) (h : (expression lowest e).Read ts (u :: rest))
    (hu : u.kind = .rparen) : (operand e).Read (t :: ts) rest := by
  apply read_operand_of
  intro n hn
  rw [Grammar.operand, ht]
  exact (h n (by omega)).bind (Yields.expect hu (.pure _ _))

theorem read_condition (ht : t.kind = .ifWord) (h : (conditional e).Read ts rest) :
    (operand e).Read (t :: ts) rest := by
  apply read_operand_of
  intro n hn
  rw [Grammar.operand, ht]
  exact h n (by omega)

theorem read_function (ht : t.kind = .funcWord) (h : (functionLiteral literal).Read ts rest) :
    (operand (.function literal)).Read (t :: ts) rest := by
  apply read_operand_of
  intro n hn
  rw [Grammar.operand, ht]
  exact (h n (by omega)).map

theorem read_print (ht : t.kind = .printWord) (hu : u.kind = .lparen)
    (h : (expressions .rparen es).Read ts rest) :
    (operand (.call (.ident t.literal) es)).Read (t :: u :: ts) rest := by
  apply read_operand_of
  intro n hn
  rw [List.length_cons] at hn
  rw [Grammar.operand, ht]
  exact Yields.expect hu ((h n (by omega)).map)

theorem read_array (ht : t.kind = .lbracket) (h : (expressions .rbracket es).Read ts rest) :
    (operand (.array es)).Read (t :: ts) rest := by
  apply read_operand_of
  intro n hn
  rw [Grammar.operand, ht]
  exact (h n (by omega)).map

theorem read_map (ht : t.kind = .lbrace) (h : (pairs ps).Read ts (u :: rest))
    (hu : u.kind = .rbrace) : (operand (.map ps)).Read (t :: ts) rest := by
  apply read_operand_of
  intro n hn
  rw [Grammar.operand, ht]
  exact (h n (by omega)).bind (Yields.expect hu (.pure _ _))

theorem read_new (ht : t.kind = .newWord) (hu : u.kind = .ident) (hv : v.kind = .lparen)
    (h : (expressions .rparen es).Read ts rest) :
    (operand (.new u.literal es)).Read (t :: u :: v :: ts) rest := by
  apply read_operand_of
  intro n hn
  rw [List.length_cons, List.length_cons] at hn
  rw [Grammar.operand, ht]
  exact Yields.expect hu (Yields.expect hv ((h n (by omega)).map))

/-! ### Operations -/

theorem read_binary (ht : t.kind.isBinary = true)
    (h : (expression t.kind.precedence e).Read ts rest) :
    (operation left (.binary left t.literal e)).Read (t :: ts) rest := by
  apply read_operation_of
  intro n hn
  have hright := Yields.map (g := fun e => Expr.binary left t.literal e) (h n (by omega))
  rw [Grammar.operation]
  cases hk : t.kind <;> simp only [TokenKind.isBinary, hk, Bool.false_eq_true] at ht
  all_goals
    rw [hk] at hright
    exact hright

theorem read_logical (ht : t.kind.isLogical = true)
    (h : (expression t.kind.precedence e).Read ts rest) :
    (operation left (.logical left t.literal e)).Read (t :: ts) rest := by
  apply read_operation_of
  intro n hn
  have hright := Yields.map (g := fun e => Expr.logical left t.literal e) (h n (by omega))
  rw [Grammar.operation]
  cases hk : t.kind <;> simp only [TokenKind.isLogical, hk, Bool.false_eq_true] at ht
  all_goals
    rw [hk] at hright
    exact hright

theorem read_call (ht : t.kind = .lparen) (h : (expressions .rparen es).Read ts rest) :
    (operation left (.call left es)).Read (t :: ts) rest := by
  apply read_operation_of
  intro n hn
  rw [Grammar.operation, ht]
  exact (h n (by omega)).map

theorem read_index (ht : t.kind = .lbracket) (h : (expression lowest e).Read ts (u :: rest))
    (hu : u.kind = .rbracket) : (operation left (.index left e)).Read (t :: ts) rest := by
  apply read_operation_of
  intro n hn
  rw [Grammar.operation, ht]
  exact (h n (by omega)).bind (Yields.expect hu (.pure _ _))

theorem read_property (ht : t.kind = .dot) (hu : u.kind = .ident) :
    (operation left (.property left u.literal)).Read (t :: u :: rest) rest := by
  apply read_operation_of
  intro n _
  rw [Grammar.operation, ht]
  exact Yields.expect hu (.pure _ _)

theorem read_assign (ht : t.kind = .assign) (hleft : left.isAssignable = true)
    (h : (expression lowest e).Read ts rest) :
    (operation left (.assign left e)).Read (t :: ts) rest := by
  apply read_operation_of
  intro n hn
  rw [Grammar.operation, ht]
  simp only [if_pos hleft]
  exact (h n (by omega)).map

/-! ### Lists of expressions and of pairs -/

theorem read_noExpressions : (expressions t.kind []).Read (t :: rest) rest := by
  intro fuel hfuel
  obtain ⟨n, rfl, -⟩ := exists_fuel hfuel
  rw [Grammar.expressions]
  apply Yields.bind_peek
  rw [aheadKind_cons, if_pos rfl]
  exact Yields.bind_next (.pure _ _)

theorem read_someExpressions (hspelled : (expression lowest e).Spelled ts mid)
    (h : (expression lowest e).Read ts mid)
    (hes : (moreExpressions es).Read mid (t :: rest)) (ht : t.kind.endsList = true) :
    (expressions t.kind (e :: es)).Read ts rest := by
  intro fuel hfuel
  obtain ⟨n, rfl, hn⟩ := exists_fuel hfuel
  have hlt := hspelled.length_lt_of_expression
  obtain ⟨hopens, -⟩ := hspelled.begins
  have hahead : aheadKind ts ≠ t.kind :=
    TokenKind.ne_of_opensOperand hopens (TokenKind.opensOperand_of_endsList ht)
  rw [Grammar.expressions]
  apply Yields.bind_peek
  rw [if_neg hahead]
  refine (h n (by omega)).bind ((hes n (by omega)).bind ?_)
  exact (Yields.expect rfl (.pure () rest)).bind (.pure _ _)

theorem read_noMoreExpressions (h : aheadKind rest ≠ .comma) :
    (moreExpressions []).Read rest rest := by
  intro fuel hfuel
  obtain ⟨n, rfl, -⟩ := exists_fuel hfuel
  rw [Grammar.moreExpressions]
  apply Yields.bind_peek
  rw [if_neg h]
  exact .pure _ _

theorem read_moreExpressions (ht : t.kind = .comma)
    (hspelled : (expression lowest e).Spelled ts mid) (h : (expression lowest e).Read ts mid)
    (hes : (moreExpressions es).Read mid rest) :
    (moreExpressions (e :: es)).Read (t :: ts) rest := by
  intro fuel hfuel
  obtain ⟨n, rfl, hn⟩ := exists_fuel hfuel
  rw [List.length_cons] at hn
  have hle := hspelled.length_le
  rw [Grammar.moreExpressions]
  apply Yields.bind_peek
  rw [aheadKind_cons, if_pos ht]
  apply Yields.bind_next
  exact (h n (by omega)).bind ((hes n (by omega)).map)

theorem read_noPairs (h : aheadKind rest = .rbrace ∨ aheadKind rest = .eof) :
    (pairs []).Read rest rest := by
  intro fuel hfuel
  obtain ⟨n, rfl, -⟩ := exists_fuel hfuel
  rw [Grammar.pairs]
  apply Yields.bind_peek
  rw [if_pos h]
  exact .pure _ _

/-- A key does not begin like the end of a map. -/
theorem not_endsPairs (hspelled : (expression lowest e).Spelled ts mid) :
    ¬(aheadKind ts = .rbrace ∨ aheadKind ts = .eof) := by
  obtain ⟨hopens, -⟩ := hspelled.begins
  rw [not_or]
  exact ⟨TokenKind.ne_of_opensOperand hopens rfl, TokenKind.ne_of_opensOperand hopens rfl⟩

theorem read_lastPair (hspelled : (expression lowest key).Spelled ts (t :: mid))
    (hkey : (expression lowest key).Read ts (t :: mid)) (ht : t.kind = .colon)
    (hvalue : (expression lowest value).Read mid rest) (hrest : aheadKind rest = .rbrace) :
    (pairs [(key, value)]).Read ts rest := by
  intro fuel hfuel
  obtain ⟨n, rfl, hn⟩ := exists_fuel hfuel
  have hle := hspelled.length_le
  rw [List.length_cons] at hle
  rw [Grammar.pairs]
  apply Yields.bind_peek
  rw [if_neg (not_endsPairs hspelled)]
  refine (hkey n (by omega)).bind (Yields.expect ht ((hvalue n (by omega)).bind ?_))
  apply Yields.bind_peek
  rw [if_pos hrest]
  exact .pure _ _

theorem read_morePairs (hspelled : (expression lowest key).Spelled ts (t :: mid))
    (hkey : (expression lowest key).Read ts (t :: mid)) (ht : t.kind = .colon)
    (hspelled' : (expression lowest value).Spelled mid (u :: us))
    (hvalue : (expression lowest value).Read mid (u :: us)) (hu : u.kind = .comma)
    (hps : (pairs ps).Read us rest) : (pairs ((key, value) :: ps)).Read ts rest := by
  intro fuel hfuel
  obtain ⟨n, rfl, hn⟩ := exists_fuel hfuel
  have hle := hspelled.length_le
  have hle' := hspelled'.length_le
  rw [List.length_cons] at hle hle'
  have hbrace : aheadKind (u :: us) ≠ .rbrace := by
    rw [aheadKind_cons, hu]
    exact TokenKind.noConfusion
  rw [Grammar.pairs]
  apply Yields.bind_peek
  rw [if_neg (not_endsPairs hspelled)]
  refine (hkey n (by omega)).bind (Yields.expect ht ((hvalue n (by omega)).bind ?_))
  apply Yields.bind_peek
  rw [if_neg hbrace]
  exact Yields.expect hu ((hps n (by omega)).map)

/-! ### Conditionals and functions -/

theorem read_withoutElse (ht : t.kind = .lparen)
    (hspelled : (expression lowest e).Spelled ts (u :: v :: mid))
    (h : (expression lowest e).Read ts (u :: v :: mid)) (hu : u.kind = .rparen)
    (hv : v.kind = .lbrace) (hb : (block b).Read mid rest) (hrest : aheadKind rest ≠ .elseWord) :
    (conditional (.cond e b none)).Read (t :: ts) rest := by
  intro fuel hfuel
  obtain ⟨n, rfl, hn⟩ := exists_fuel hfuel
  have hle := hspelled.length_le
  rw [List.length_cons] at hn
  rw [List.length_cons, List.length_cons] at hle
  rw [Grammar.conditional]
  apply Yields.expect ht
  refine (h n (by omega)).bind (Yields.expect hu (Yields.expect hv ?_))
  refine (hb n (by omega)).bind ?_
  apply Yields.bind_peek
  rw [if_neg hrest]
  exact .pure _ _

theorem read_withElse (ht : t.kind = .lparen)
    (hspelled : (expression lowest e).Spelled ts (u :: v :: mid))
    (h : (expression lowest e).Read ts (u :: v :: mid)) (hu : u.kind = .rparen)
    (hv : v.kind = .lbrace) (hblock : (block b).Spelled mid (w :: x :: us))
    (hb : (block b).Read mid (w :: x :: us)) (hw : w.kind = .elseWord) (hx : x.kind = .lbrace)
    (halternative : (block alternative).Read us rest) :
    (conditional (.cond e b (some alternative))).Read (t :: ts) rest := by
  intro fuel hfuel
  obtain ⟨n, rfl, hn⟩ := exists_fuel hfuel
  have hle := hspelled.length_le
  have hle' := hblock.length_le
  rw [List.length_cons] at hn
  rw [List.length_cons, List.length_cons] at hle hle'
  have hif : aheadKind (x :: us) ≠ .ifWord := by
    rw [aheadKind_cons, hx]
    exact TokenKind.noConfusion
  rw [Grammar.conditional]
  apply Yields.expect ht
  refine (h n (by omega)).bind (Yields.expect hu (Yields.expect hv ?_))
  refine (hb n (by omega)).bind ?_
  apply Yields.bind_peek
  rw [aheadKind_cons, if_pos hw]
  apply Yields.bind_next
  apply Yields.bind_peek
  rw [if_neg hif]
  exact Yields.expect hx (halternative n (by omega)).map

theorem read_elseIf (ht : t.kind = .lparen)
    (hspelled : (expression lowest e).Spelled ts (u :: v :: mid))
    (h : (expression lowest e).Read ts (u :: v :: mid)) (hu : u.kind = .rparen)
    (hv : v.kind = .lbrace) (hblock : (block b).Spelled mid (w :: x :: us))
    (hb : (block b).Read mid (w :: x :: us)) (hw : w.kind = .elseWord) (hx : x.kind = .ifWord)
    (hnested : (conditional inner).Read us rest) :
    (conditional (.cond e b (some [.expr inner]))).Read (t :: ts) rest := by
  intro fuel hfuel
  obtain ⟨n, rfl, hn⟩ := exists_fuel hfuel
  have hle := hspelled.length_le
  have hle' := hblock.length_le
  rw [List.length_cons] at hn
  rw [List.length_cons, List.length_cons] at hle hle'
  rw [Grammar.conditional]
  apply Yields.expect ht
  refine (h n (by omega)).bind (Yields.expect hu (Yields.expect hv ?_))
  refine (hb n (by omega)).bind ?_
  apply Yields.bind_peek
  rw [aheadKind_cons, if_pos hw]
  apply Yields.bind_next
  apply Yields.bind_peek
  rw [aheadKind_cons, if_pos hx]
  apply Yields.bind_next
  exact (hnested n (by omega)).map

theorem read_noParameters (ht : t.kind = .rparen) : (parameters []).Read (t :: rest) rest := by
  change Grammar.parameters.Yields (t :: rest) (some []) rest
  rw [Grammar.parameters]
  apply Yields.bind_peek
  rw [aheadKind_cons, if_pos ht]
  exact Yields.bind_next (.pure _ _)

theorem read_someParameters (ht : t.kind = .ident) (h : (moreParameters names).Read ts rest) :
    (parameters (t.literal :: names)).Read (t :: ts) rest := by
  change Grammar.parameters.Yields (t :: ts) (some (t.literal :: names)) rest
  have hahead : aheadKind (t :: ts) ≠ .rparen := by
    rw [aheadKind_cons, ht]
    exact TokenKind.noConfusion
  rw [Grammar.parameters]
  apply Yields.bind_peek
  rw [if_neg hahead]
  apply Yields.expect ht
  exact Yields.map (g := Option.map (t.literal :: ·)) h

theorem read_noMoreParameters (ht : t.kind = .rparen) :
    (moreParameters []).Read (t :: rest) rest := by
  have hcomma : t.kind ≠ .comma := by
    rw [ht]
    exact TokenKind.noConfusion
  change Grammar.moreParameters (t :: rest) = _
  rw [Grammar.moreParameters.eq_def]
  simp only [if_neg hcomma, if_pos ht]

theorem read_moreParameters (ht : t.kind = .comma) (hu : u.kind = .ident)
    (h : (moreParameters names).Read ts rest) :
    (moreParameters (u.literal :: names)).Read (t :: u :: ts) rest := by
  have hmore : Grammar.moreParameters ts = ⟨some names, rest, []⟩ := h
  change Grammar.moreParameters (t :: u :: ts) = _
  rw [Grammar.moreParameters, if_pos ht]
  simp only [if_pos hu, hmore, Option.map_some]

theorem read_functionLiteral (ht : t.kind = .lparen)
    (hspelled : (parameters names).Spelled ts (u :: mid))
    (h : (parameters names).Read ts (u :: mid)) (hu : u.kind = .lbrace)
    (hb : (block b).Read mid rest) :
    (functionLiteral (.mk names b)).Read (t :: ts) rest := by
  intro fuel hfuel
  obtain ⟨n, rfl, hn⟩ := exists_fuel hfuel
  have hle := hspelled.length_le
  rw [List.length_cons] at hn hle
  rw [Grammar.functionLiteral]
  apply Yields.expect ht
  refine Yields.bind h ?_
  exact Yields.expect hu (hb n (by omega)).map

theorem read_emptyBlock (ht : t.kind = .rbrace) : (block []).Read (t :: rest) rest := by
  intro fuel hfuel
  obtain ⟨n, rfl, -⟩ := exists_fuel hfuel
  rw [Grammar.block]
  apply Yields.bind_peek
  rw [aheadKind_cons, if_pos ht]
  exact Yields.bind_next (.pure _ _)

theorem read_block (hspelled : (statement first).Spelled ts mid)
    (hs : (statement first).Read ts mid) (hb : (block b).Read mid rest) :
    (block (first.toList ++ b)).Read ts rest := by
  intro fuel hfuel
  obtain ⟨n, rfl, hn⟩ := exists_fuel hfuel
  have hlt := hspelled.length_lt_of_statement
  obtain ⟨hbrace, hend⟩ := hspelled.begins
  rw [Grammar.block]
  apply Yields.bind_peek
  rw [if_neg hbrace, if_neg hend]
  exact (hs n (by omega)).bind (hb n (by omega)).map

/-! ### Statements -/

theorem read_semicolon (ht : t.kind = .semicolon) : Phrase.semicolon.Read (t :: rest) rest :=
  yields_skipSemicolon.mpr (.inl ⟨t, ht, rfl⟩)

theorem read_noSemicolon (h : aheadKind rest ≠ .semicolon) : Phrase.semicolon.Read rest rest :=
  yields_skipSemicolon.mpr (.inr ⟨h, rfl⟩)

theorem read_expressionStatement (h : (expression lowest e).Read ts mid)
    (hend : Phrase.semicolon.Read mid rest) : (expressionStatement (.expr e)).Read ts rest := by
  intro fuel hfuel
  obtain ⟨n, rfl, hn⟩ := exists_fuel hfuel
  rw [Grammar.expressionStatement]
  exact (h n (by omega)).bind (Yields.bind hend (.pure _ _))

theorem read_emptyStatement (ht : t.kind = .semicolon) :
    (statement none).Read (t :: rest) rest := by
  intro fuel hfuel
  obtain ⟨n, rfl, -⟩ := exists_fuel hfuel
  rw [Grammar.statement]
  apply Yields.bind_peek
  rw [aheadKind_cons, ht]
  exact Yields.bind_next (.pure _ _)

theorem read_expr (hspelled : (expressionStatement s).Spelled ts rest)
    (h : (expressionStatement s).Read ts rest) : (statement (some s)).Read ts rest := by
  intro fuel hfuel
  obtain ⟨n, rfl, hn⟩ := exists_fuel hfuel
  have hstatement := h n (by omega)
  obtain ⟨hopens, hfunction⟩ := hspelled.begins
  rw [Grammar.statement]
  apply Yields.bind_peek
  split
  case h_1 hahead => exact absurd hahead (TokenKind.ne_of_opensOperand hopens rfl)
  case h_2 hahead => exact absurd hahead (TokenKind.ne_of_opensOperand hopens rfl)
  case h_3 hahead => exact absurd hahead (TokenKind.ne_of_opensOperand hopens rfl)
  case h_4 hahead => exact absurd hahead (TokenKind.ne_of_opensOperand hopens rfl)
  case h_5 hahead =>
    have hsecond : aheadKind ts.tail ≠ .ident := by
      rw [hfunction hahead]
      exact TokenKind.noConfusion
    apply Yields.bind_peekSecond
    rw [if_neg hsecond]
    exact hstatement
  case h_6 => exact hstatement

theorem read_letIn (ht : t.kind = .letWord) (hu : u.kind = .ident) (hv : v.kind = .assign)
    (h : (expression lowest e).Read ts mid) (hend : Phrase.semicolon.Read mid rest) :
    (statement (some (.letIn u.literal e))).Read (t :: u :: v :: ts) rest := by
  intro fuel hfuel
  obtain ⟨n, rfl, hn⟩ := exists_fuel hfuel
  rw [List.length_cons, List.length_cons, List.length_cons] at hn
  rw [Grammar.statement]
  apply Yields.bind_peek
  rw [aheadKind_cons, ht]
  apply Yields.bind_next
  apply Yields.expect hu
  apply Yields.expect hv
  exact (h n (by omega)).bind (Yields.bind hend (.pure _ _))

theorem read_bareReturn (ht : t.kind = .returnWord)
    (hts : aheadKind ts = .semicolon ∨ aheadKind ts = .rbrace)
    (hend : Phrase.semicolon.Read ts rest) :
    (statement (some (.ret .missing))).Read (t :: ts) rest := by
  intro fuel hfuel
  obtain ⟨n, rfl, -⟩ := exists_fuel hfuel
  rw [Grammar.statement]
  apply Yields.bind_peek
  rw [aheadKind_cons, ht]
  apply Yields.bind_next
  apply Yields.bind_peek
  rw [if_pos hts]
  exact Yields.bind hend (.pure _ _)

theorem read_ret (ht : t.kind = .returnWord) (hspelled : (expression lowest e).Spelled ts mid)
    (h : (expression lowest e).Read ts mid) (hend : Phrase.semicolon.Read mid rest) :
    (statement (some (.ret e))).Read (t :: ts) rest := by
  intro fuel hfuel
  obtain ⟨n, rfl, hn⟩ := exists_fuel hfuel
  rw [List.length_cons] at hn
  obtain ⟨hopens, -⟩ := hspelled.begins
  have hbare : ¬(aheadKind ts = .semicolon ∨ aheadKind ts = .rbrace) := by
    rw [not_or]
    exact ⟨TokenKind.ne_of_opensOperand hopens rfl, TokenKind.ne_of_opensOperand hopens rfl⟩
  rw [Grammar.statement]
  apply Yields.bind_peek
  rw [aheadKind_cons, ht]
  apply Yields.bind_next
  apply Yields.bind_peek
  rw [if_neg hbare]
  exact (h n (by omega)).bind (Yields.bind hend (.pure _ _))

theorem read_namedFunction (ht : t.kind = .funcWord) (hu : u.kind = .ident)
    (h : (functionLiteral literal).Read ts mid) (hend : Phrase.semicolon.Read mid rest) :
    (statement (some (.letIn u.literal (.function literal)))).Read (t :: u :: ts) rest := by
  intro fuel hfuel
  obtain ⟨n, rfl, hn⟩ := exists_fuel hfuel
  rw [List.length_cons, List.length_cons] at hn
  rw [Grammar.statement]
  apply Yields.bind_peek
  rw [aheadKind_cons, ht]
  apply Yields.bind_peekSecond
  rw [List.tail_cons, aheadKind_cons, if_pos hu]
  apply Yields.bind_next
  apply Yields.bind_next
  exact (h n (by omega)).bind (Yields.bind hend (.pure _ _))

theorem read_classDef (ht : t.kind = .classWord) (h : (classDefinition s).Read ts rest) :
    (statement (some s)).Read (t :: ts) rest := by
  intro fuel hfuel
  obtain ⟨n, rfl, hn⟩ := exists_fuel hfuel
  rw [List.length_cons] at hn
  rw [Grammar.statement]
  apply Yields.bind_peek
  rw [aheadKind_cons, ht]
  apply Yields.bind_next
  exact h n (by omega)

/-! ### Classes -/

theorem read_baseClass (ht : t.kind = .ident) (hu : u.kind = .lbrace)
    (h : (methods ms).Read ts rest) :
    (classDefinition (.classDef t.literal none ms)).Read (t :: u :: ts) rest := by
  intro fuel hfuel
  obtain ⟨n, rfl, hn⟩ := exists_fuel hfuel
  rw [List.length_cons, List.length_cons] at hn
  have hextends : aheadKind (u :: ts) ≠ .extendsWord := by
    rw [aheadKind_cons, hu]
    exact TokenKind.noConfusion
  rw [Grammar.classDefinition]
  apply Yields.expect ht
  apply Yields.bind_peek
  rw [if_neg hextends]
  apply Yields.expect hu
  exact Yields.map (g := Option.map (Stmt.classDef t.literal none)) (h n (by omega))

theorem read_subclass (ht : t.kind = .ident) (hu : u.kind = .extendsWord) (hv : v.kind = .ident)
    (hw : w.kind = .lbrace) (h : (methods ms).Read ts rest) :
    (classDefinition (.classDef t.literal (some v.literal) ms)).Read (t :: u :: v :: w :: ts)
      rest := by
  intro fuel hfuel
  obtain ⟨n, rfl, hn⟩ := exists_fuel hfuel
  rw [List.length_cons, List.length_cons, List.length_cons, List.length_cons] at hn
  rw [Grammar.classDefinition]
  apply Yields.expect ht
  apply Yields.bind_peek
  rw [aheadKind_cons, if_pos hu]
  apply Yields.bind_next
  apply Yields.expect hv
  apply Yields.expect hw
  exact Yields.map (g := Option.map (Stmt.classDef t.literal (some v.literal))) (h n (by omega))

theorem read_noMethods (ht : t.kind = .rbrace) : (methods []).Read (t :: rest) rest := by
  intro fuel hfuel
  obtain ⟨n, rfl, -⟩ := exists_fuel hfuel
  rw [Grammar.methods]
  apply Yields.bind_next
  rw [ht]
  exact .pure _ _

theorem read_strayMethods (ht : t.kind = .semicolon) (h : (methods ms).Read ts rest) :
    (methods ms).Read (t :: ts) rest := by
  intro fuel hfuel
  obtain ⟨n, rfl, hn⟩ := exists_fuel hfuel
  rw [List.length_cons] at hn
  rw [Grammar.methods]
  apply Yields.bind_next
  rw [ht]
  exact h n (by omega)

theorem read_methods (ht : t.kind = .letWord) (hspelled : (method name literal).Spelled ts mid)
    (h : (method name literal).Read ts mid) (hms : (methods ms).Read mid rest) :
    (methods ((name, literal) :: ms)).Read (t :: ts) rest := by
  intro fuel hfuel
  obtain ⟨n, rfl, hn⟩ := exists_fuel hfuel
  have hle := hspelled.length_le
  rw [List.length_cons] at hn
  rw [Grammar.methods]
  apply Yields.bind_next
  rw [ht]
  refine (h n (by omega)).bind ?_
  exact Yields.map (g := Option.map ([(name, literal)] ++ ·)) (hms n (by omega))

theorem read_method (ht : t.kind = .ident) (hu : u.kind = .assign) (hv : v.kind = .funcWord)
    (h : (functionLiteral literal).Read ts mid) (hend : Phrase.semicolon.Read mid rest) :
    (method t.literal literal).Read (t :: u :: v :: ts) rest := by
  intro fuel hfuel
  obtain ⟨n, rfl, hn⟩ := exists_fuel hfuel
  rw [List.length_cons, List.length_cons, List.length_cons] at hn
  rw [Grammar.method]
  apply Yields.expect ht
  apply Yields.expect hu
  apply Yields.expect hv
  exact (h n (by omega)).bind (Yields.bind hend (.pure _ _))

/-! ### Programs -/

theorem read_emptyProgram (h : aheadKind rest = .eof) : (program []).Read rest rest := by
  intro fuel hfuel
  obtain ⟨n, rfl, -⟩ := exists_fuel hfuel
  rw [Grammar.program]
  apply Yields.bind_peek
  rw [if_pos h]
  exact .pure _ _

theorem read_program (hspelled : (statement first).Spelled ts mid)
    (hs : (statement first).Read ts mid) (hb : (program b).Read mid rest) :
    (program (first.toList ++ b)).Read ts rest := by
  intro fuel hfuel
  obtain ⟨n, rfl, hn⟩ := exists_fuel hfuel
  have hlt := hspelled.length_lt_of_statement
  obtain ⟨-, hend⟩ := hspelled.begins
  rw [Grammar.program]
  apply Yields.bind_peek
  rw [if_neg hend]
  exact (hs n (by omega)).bind (hb n (by omega)).map

/-- A phrase that is spelled is read. -/
theorem Spelled.read {phrase : Phrase} (h : phrase.Spelled ts rest) : phrase.Read ts rest := by
  induction h with
  | expression hleft _ ih1 ih2 => exact read_expression hleft ih1 ih2
  | noOperator h => exact read_noOperator h
  | operator h hinner _ ih1 ih2 => exact read_operator h hinner ih1 ih2
  | leaf h => exact read_leaf h
  | unary ht _ ih => exact read_unary ht ih
  | grouped ht _ hu ih => exact read_grouped ht ih hu
  | condition ht _ ih => exact read_condition ht ih
  | function ht _ ih => exact read_function ht ih
  | print ht hu _ ih => exact read_print ht hu ih
  | array ht _ ih => exact read_array ht ih
  | map ht _ hu ih => exact read_map ht ih hu
  | new ht hu hv _ ih => exact read_new ht hu hv ih
  | binary ht _ ih => exact read_binary ht ih
  | logical ht _ ih => exact read_logical ht ih
  | call ht _ ih => exact read_call ht ih
  | index ht _ hu ih => exact read_index ht ih hu
  | property ht hu => exact read_property ht hu
  | assign ht hleft _ ih => exact read_assign ht hleft ih
  | noExpressions => exact read_noExpressions
  | someExpressions h _ ht ih1 ih2 => exact read_someExpressions h ih1 ih2 ht
  | noMoreExpressions h => exact read_noMoreExpressions h
  | moreExpressions ht h _ ih1 ih2 => exact read_moreExpressions ht h ih1 ih2
  | noPairs h => exact read_noPairs h
  | lastPair hkey ht _ hrest ih1 ih2 => exact read_lastPair hkey ih1 ht ih2 hrest
  | morePairs hkey ht hvalue hu _ ih1 ih2 ih3 => exact read_morePairs hkey ih1 ht hvalue ih2 hu ih3
  | withoutElse ht h hu hv _ hrest ih1 ih2 => exact read_withoutElse ht h ih1 hu hv ih2 hrest
  | withElse ht h hu hv hb hw hx _ ih1 ih2 ih3 =>
      exact read_withElse ht h ih1 hu hv hb ih2 hw hx ih3
  | elseIf ht h hu hv hb hw hx _ ih1 ih2 ih3 =>
      exact read_elseIf ht h ih1 hu hv hb ih2 hw hx ih3
  | noParameters ht => exact read_noParameters ht
  | someParameters ht _ ih => exact read_someParameters ht ih
  | noMoreParameters ht => exact read_noMoreParameters ht
  | moreParameters ht hu _ ih => exact read_moreParameters ht hu ih
  | functionLiteral ht h hu _ ih1 ih2 => exact read_functionLiteral ht h ih1 hu ih2
  | emptyBlock ht => exact read_emptyBlock ht
  | block hs _ ih1 ih2 => exact read_block hs ih1 ih2
  | semicolon ht => exact read_semicolon ht
  | noSemicolon h => exact read_noSemicolon h
  | expressionStatement _ _ ih1 ih2 => exact read_expressionStatement ih1 ih2
  | emptyStatement ht => exact read_emptyStatement ht
  | expr h ih => exact read_expr h ih
  | letIn ht hu hv _ _ ih1 ih2 => exact read_letIn ht hu hv ih1 ih2
  | bareReturn ht hts _ ih => exact read_bareReturn ht hts ih
  | ret ht h _ ih1 ih2 => exact read_ret ht h ih1 ih2
  | namedFunction ht hu _ _ ih1 ih2 => exact read_namedFunction ht hu ih1 ih2
  | classDef ht _ ih => exact read_classDef ht ih
  | baseClass ht hu _ ih => exact read_baseClass ht hu ih
  | subclass ht hu hv hw _ ih => exact read_subclass ht hu hv hw ih
  | noMethods ht => exact read_noMethods ht
  | strayMethods ht _ ih => exact read_strayMethods ht ih
  | methods ht h _ ih1 ih2 => exact read_methods ht h ih1 ih2
  | method ht hu hv _ _ ih1 ih2 => exact read_method ht hu hv ih1 ih2
  | emptyProgram h => exact read_emptyProgram h
  | program hs _ ih1 ih2 => exact read_program hs ih1 ih2

end Phrase

/-- Tokens that spell a program are read as that program, without a fault. -/
theorem Reading.ofTokens_of_spelled {ts rest : List Token} {b : Block}
    (h : (Phrase.program b).Spelled ts rest) : Reading.ofTokens ts = ⟨b, []⟩ := by
  have hfuel : 8 * ts.length + 5 < Grammar.fuelFor ts := by
    rw [Grammar.fuelFor]
    omega
  have hyields : Grammar.program (Grammar.fuelFor ts) ts = ⟨b, rest, []⟩ := h.read _ hfuel
  rw [Reading.ofTokens, hyields]

/-- Tokens spell one program at most, however far its spelling reaches. -/
theorem Phrase.Spelled.program_unique {ts rest rest' : List Token} {b b' : Block}
    (h : (Phrase.program b).Spelled ts rest) (h' : (Phrase.program b').Spelled ts rest') :
    b = b' := by
  have hread := Reading.ofTokens_of_spelled h
  rw [Reading.ofTokens_of_spelled h'] at hread
  exact (congrArg Reading.program hread).symm

/-- The programs that are read without a fault are those that the tokens spell. -/
theorem Reading.ofTokens_eq_iff {ts : List Token} {b : Block} :
    Reading.ofTokens ts = ⟨b, []⟩ ↔ ∃ rest, (Phrase.program b).Spelled ts rest := by
  constructor
  · intro h
    have hspelled := @Reading.program_spelled ts (by rw [h])
    rw [h] at hspelled
    exact hspelled
  · rintro ⟨rest, h⟩
    exact ofTokens_of_spelled h

end Scripting
