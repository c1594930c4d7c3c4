import Scripting.Proofs.Reading.Completeness
import Scripting.Proofs.Reading.Position
import Scripting.Proofs.Token.DigitRow
import Scripting.Proofs.Tree.Forall

/-!
# Programs written as tokens

A tree is written as tokens with every compound expression in parentheses, every block in braces
and a semicolon behind every `let`, `return`, expression statement and method. Written so, every
proper tree is spelled by its tokens, whatever follows them.
-/

namespace Scripting

open Step Precedence

/-! ### Proper trees -/

/-- What a proper tree asks of each of its nodes: nothing is missing, an integer is written with
digits that spell it and is not too large, operators are those of the language, and the target of an
assignment can be assigned to. -/
def Expr.IsProper : Expr → Prop
  | .missing => False
  | .int value literal =>
      literal ≠ "" ∧ DigitRow literal ∧ literal.toList.length ≤ digitLimit ∧
        value = numberOfDigits literal.toList ∧ value ≤ largestInteger
  | .assign target _ => target.isAssignable = true
  | .unary op _ => op ∈ ["!", "-"]
  | .binary _ op _ => op ∈ ["+", "-", "*", "/", "<", ">", "==", "!="]
  | .logical _ op _ => op ∈ ["&&", "||"]
  | _ => True

/-- The kind of an operator. -/
def TokenKind.ofOperator : String → TokenKind
  | "!" => .bang
  | "-" => .minus
  | "+" => .plus
  | "*" => .asterisk
  | "/" => .slash
  | "<" => .lt
  | ">" => .gt
  | "==" => .eq
  | "!=" => .notEq
  | "&&" => .and
  | "||" => .or
  | _ => .illegal

/-! ### Tokens of a tree -/

namespace Token

/-- A name. -/
def name (s : String) : Token := ⟨.ident, s, 0⟩

/-- An operator. -/
def operator (op : String) : Token := ⟨.ofOperator op, op, 0⟩

/-- A comma. -/
def comma : Token := ⟨.comma, ",", 0⟩

def semicolon : Token := ⟨.semicolon, ";", 0⟩

def openParen : Token := ⟨.lparen, "(", 0⟩

def closeParen : Token := ⟨.rparen, ")", 0⟩

def openBrace : Token := ⟨.lbrace, "\x7b", 0⟩

def closeBrace : Token := ⟨.rbrace, "\x7d", 0⟩

def openBracket : Token := ⟨.lbracket, "[", 0⟩

def closeBracket : Token := ⟨.rbracket, "]", 0⟩

end Token

/-- The names of parameters behind the first, each behind a comma, and the closing parenthesis. -/
def moreParameterTokens : List String → List Token
  | [] => [.closeParen]
  | name :: rest => .comma :: .name name :: moreParameterTokens rest

/-- The names of parameters and the closing parenthesis. -/
def parameterTokens : List String → List Token
  | [] => [.closeParen]
  | name :: rest => .name name :: moreParameterTokens rest

mutual

/-- The tokens of an expression: a name, a literal or a word by itself, anything else in
parentheses. -/
def Expr.tokens : Expr → List Token
  | .missing => []
  | .ident name => [.name name]
  | .int _ literal => [⟨.int, literal, 0⟩]
  | .str value => [⟨.string, value, 0⟩]
  | .bool true => [⟨.trueWord, "true", 0⟩]
  | .bool false => [⟨.falseWord, "false", 0⟩]
  | .null => [⟨.nullWord, "null", 0⟩]
  | .this => [⟨.thisWord, "this", 0⟩]
  | .super => [⟨.superWord, "super", 0⟩]
  | .array elements =>
      .openParen :: .openBracket :: (Expr.tokensIn elements ++ [.closeBracket, .closeParen])
  | .map pairs =>
      .openParen :: .openBrace :: (Expr.tokensInPairs pairs ++ [.closeBrace, .closeParen])
  | .index target position =>
      .openParen :: (target.tokens ++ .openBracket ::
        (position.tokens ++ [.closeBracket, .closeParen]))
  | .property object name =>
      .openParen :: (object.tokens ++ [⟨.dot, ".", 0⟩, .name name, .closeParen])
  | .assign target value =>
      .openParen :: (target.tokens ++ ⟨.assign, "=", 0⟩ :: (value.tokens ++ [.closeParen]))
  | .new className args =>
      .openParen :: ⟨.newWord, "new", 0⟩ :: .name className :: .openParen ::
        (Expr.tokensIn args ++ [.closeParen, .closeParen])
  | .unary op operand => .openParen :: .operator op :: (operand.tokens ++ [.closeParen])
  | .binary left op right =>
      .openParen :: (left.tokens ++ .operator op :: (right.tokens ++ [.closeParen]))
  | .logical left op right =>
      .openParen :: (left.tokens ++ .operator op :: (right.tokens ++ [.closeParen]))
  | .cond condition consequence none =>
      .openParen :: ⟨.ifWord, "if", 0⟩ :: .openParen :: (condition.tokens ++ .closeParen ::
        .openBrace :: (Block.tokens consequence ++ [.closeBrace, .closeParen]))
  | .cond condition consequence (some alternative) =>
      .openParen :: ⟨.ifWord, "if", 0⟩ :: .openParen :: (condition.tokens ++ .closeParen ::
        .openBrace :: (Block.tokens consequence ++ .closeBrace :: ⟨.elseWord, "else", 0⟩ ::
          .openBrace :: (Block.tokens alternative ++ [.closeBrace, .closeParen])))
  | .function literal => .openParen :: ⟨.funcWord, "func", 0⟩ :: (literal.tokens ++ [.closeParen])
  | .call callee args =>
      .openParen :: (callee.tokens ++ .openParen ::
        (Expr.tokensIn args ++ [.closeParen, .closeParen]))

/-- The tokens of expressions with commas between them. -/
def Expr.tokensIn : List Expr → List Token
  | [] => []
  | e :: rest => e.tokens ++ Expr.tokensInMore rest

/-- The tokens of expressions, each behind a comma. -/
def Expr.tokensInMore : List Expr → List Token
  | [] => []
  | e :: rest => .comma :: (e.tokens ++ Expr.tokensInMore rest)

/-- The tokens of the pairs of a map with commas between them. -/
def Expr.tokensInPairs : List (Expr × Expr) → List Token
  | [] => []
  | [(key, value)] => key.tokens ++ ⟨.colon, ":", 0⟩ :: value.tokens
  | (key, value) :: rest =>
      key.tokens ++ ⟨.colon, ":", 0⟩ :: (value.tokens ++ .comma :: Expr.tokensInPairs rest)

/-- The tokens of a statement. -/
def Stmt.tokens : Stmt → List Token
  | .letIn name value =>
      ⟨.letWord, "let", 0⟩ :: .name name :: ⟨.assign, "=", 0⟩ :: (value.tokens ++ [.semicolon])
  | .ret value => ⟨.returnWord, "return", 0⟩ :: (value.tokens ++ [.semicolon])
  | .expr value => value.tokens ++ [.semicolon]
  | .classDef name none methods =>
      ⟨.classWord, "class", 0⟩ :: .name name :: .openBrace ::
        (FunctionLiteral.tokensIn methods ++ [.closeBrace])
  | .classDef name (some superclass) methods =>
      ⟨.classWord, "class", 0⟩ :: .name name :: ⟨.extendsWord, "extends", 0⟩ ::
        .name superclass :: .openBrace :: (FunctionLiteral.tokensIn methods ++ [.closeBrace])

/-- The tokens of a block without its braces, and of a program. -/
def Block.tokens : List Stmt → List Token
  | [] => []
  | s :: rest => s.tokens ++ Block.tokens rest

/-- The tokens of a function behind its first word. -/
def FunctionLiteral.tokens : FunctionLiteral → List Token
  | .mk params body =>
      .openParen :: (parameterTokens params ++ .openBrace :: (Block.tokens body ++ [.closeBrace]))

/-- The tokens of the methods of a class. -/
def FunctionLiteral.tokensIn : List (String × FunctionLiteral) → List Token
  | [] => []
  | (name, method) :: rest =>
      ⟨.letWord, "let", 0⟩ :: .name name :: ⟨.assign, "=", 0⟩ :: ⟨.funcWord, "func", 0⟩ ::
        (method.tokens ++ .semicolon :: FunctionLiteral.tokensIn rest)

end

namespace TokenKind

theorem isUnary_ofOperator {op : String} (h : op ∈ ["!", "-"]) :
    (ofOperator op).isUnary = true := by
  simp only [List.mem_cons, List.not_mem_nil, or_false] at h
  rcases h with rfl | rfl <;> rfl

theorem isBinary_ofOperator {op : String}
    (h : op ∈ ["+", "-", "*", "/", "<", ">", "==", "!="]) : (ofOperator op).isBinary = true := by
  simp only [List.mem_cons, List.not_mem_nil, or_false] at h
  rcases h with rfl | rfl | rfl | rfl | rfl | rfl | rfl | rfl <;> rfl

theorem isLogical_ofOperator {op : String} (h : op ∈ ["&&", "||"]) :
    (ofOperator op).isLogical = true := by
  simp only [List.mem_cons, List.not_mem_nil, or_false] at h
  rcases h with rfl | rfl <;> rfl

theorem lowest_lt_of_isBinary {kind : TokenKind} (h : kind.isBinary = true) :
    lowest < kind.precedence := by
  cases kind <;> first | decide | cases h

theorem lowest_lt_of_isLogical {kind : TokenKind} (h : kind.isLogical = true) :
    lowest < kind.precedence := by
  cases kind <;> first | decide | cases h

theorem precedence_of_endsList {kind : TokenKind} (h : kind.endsList = true) :
    kind.precedence = lowest := by
  cases kind <;> first | rfl | cases h

end TokenKind

namespace Phrase

variable {t u : Token} {ts rest : List Token} {e left whole : Expr} {precedence : Nat}

/-- An operand is an expression in front of anything but an operator that binds tighter. -/
theorem Spelled.expression_of_operand (h : (operand e).Spelled ts rest)
    (hrest : (aheadKind rest).precedence ≤ precedence) :
    (Phrase.expression precedence e).Spelled ts rest :=
  .expression h (.noOperator hrest)

/-- An operand with one operation behind it, closed by a mark. -/
theorem Spelled.expression_of_operation {mid : List Token}
    (hleft : (operand left).Spelled ts (t :: mid))
    (ht : lowest < t.kind.precedence) (h : (operation left whole).Spelled (t :: mid) rest)
    (hrest : (aheadKind rest).precedence ≤ lowest) :
    (Phrase.expression lowest whole).Spelled ts rest :=
  .expression hleft (.operator ht h (.noOperator hrest))

theorem Spelled.inParens (h : (Phrase.expression lowest e).Spelled ts (.closeParen :: rest)) :
    (operand e).Spelled (.openParen :: ts) rest :=
  .grouped rfl h rfl

end Phrase

theorem spelled_moreParameterTokens (names : List String) (rest : List Token) :
    (Phrase.moreParameters names).Spelled (moreParameterTokens names ++ rest) rest := by
  induction names with
  | nil => exact .noMoreParameters rfl
  | cons name names ih => exact .moreParameters (t := .comma) (u := .name name) rfl rfl ih

theorem spelled_parameterTokens (names : List String) (rest : List Token) :
    (Phrase.parameters names).Spelled (parameterTokens names ++ rest) rest := by
  cases names with
  | nil => exact .noParameters rfl
  | cons name names =>
      exact .someParameters (t := .name name) rfl (spelled_moreParameterTokens names rest)

theorem leaf_of_int {literal : String} (hdigits : DigitRow literal)
    (hlength : literal.toList.length ≤ digitLimit)
    (hvalue : (numberOfDigits literal.toList : Int) ≤ largestInteger) :
    (⟨.int, literal, 0⟩ : Token).leaf? = some (.int (numberOfDigits literal.toList) literal) := by
  rw [← literalDigits_of_digitRow hdigits] at hlength
  rw [← literalValue_of_digitRow hdigits] at hvalue ⊢
  exact if_pos ⟨hlength, hvalue⟩

/-- What stands behind an expression of a list binds no tighter than the list. -/
theorem precedence_tokensInMore (es : List Expr) {t : Token} (ht : t.kind.endsList = true)
    (rest : List Token) :
    (aheadKind (Expr.tokensInMore es ++ t :: rest)).precedence ≤ lowest := by
  cases es with
  | nil =>
      rw [Expr.tokensInMore, List.nil_append, aheadKind_cons]
      exact Nat.le_of_eq (TokenKind.precedence_of_endsList ht)
  | cons e es => exact Nat.le_refl _

mutual

/-- An expression is spelled by its tokens, as an operand and so in front of anything. -/
theorem Expr.spelled_operand (e : Expr) (h : e.Forall Expr.IsProper) (rest : List Token) :
    (Phrase.operand e).Spelled (e.tokens ++ rest) rest := by
  have hclose : (aheadKind (.closeParen :: rest)).precedence ≤ lowest := Nat.le_refl _
  match e with
  | .missing => exact absurd h id
  | .ident name => exact .leaf rfl
  | .int value literal =>
      obtain ⟨-, hdigits, hlength, rfl, hvalue⟩ := h
      exact .leaf (leaf_of_int hdigits hlength hvalue)
  | .str value => exact .leaf rfl
  | .bool true => exact .leaf rfl
  | .bool false => exact .leaf rfl
  | .null => exact .leaf rfl
  | .this => exact .leaf rfl
  | .super => exact .leaf rfl
  | .array elements =>
      simp only [Expr.tokens, List.cons_append, List.append_assoc, List.nil_append]
      have helements := Expr.spelled_expressions elements h.2 (t := .closeBracket) rfl
        (.closeParen :: rest)
      exact .inParens ((Phrase.Spelled.array rfl helements).expression_of_operand hclose)
  | .map pairs =>
      simp only [Expr.tokens, List.cons_append, List.append_assoc, List.nil_append]
      have hpairs := Expr.spelled_pairs pairs h.2 (.closeBrace :: .closeParen :: rest) rfl
      exact .inParens ((Phrase.Spelled.map rfl hpairs rfl).expression_of_operand hclose)
  | .index target position =>
      obtain ⟨-, htarget, hposition⟩ := h
      simp only [Expr.tokens, List.cons_append, List.append_assoc, List.nil_append]
      have hposition := (Expr.spelled_operand position hposition
        (.closeBracket :: .closeParen :: rest)).expression_of_operand (Nat.le_refl lowest)
      have htarget := Expr.spelled_operand target htarget
        (.openBracket :: (position.tokens ++ .closeBracket :: .closeParen :: rest))
      have hindex : (Phrase.operation target (.index target position)).Spelled _ _ :=
        .index (t := .openBracket) rfl hposition rfl
      exact .inParens (htarget.expression_of_operation (by decide) hindex hclose)
  | .property object name =>
      obtain ⟨-, hobject⟩ := h
      simp only [Expr.tokens, List.cons_append, List.append_assoc, List.nil_append]
      have hobject := Expr.spelled_operand object hobject
        (⟨.dot, ".", 0⟩ :: .name name :: .closeParen :: rest)
      have hproperty : (Phrase.operation object (.property object name)).Spelled
          (⟨.dot, ".", 0⟩ :: .name name :: .closeParen :: rest) (.closeParen :: rest) :=
        .property (u := .name name) rfl rfl
      exact .inParens (hobject.expression_of_operation (by decide) hproperty hclose)
  | .assign target value =>
      obtain ⟨hassignable, htarget, hvalue⟩ := h
      simp only [Expr.tokens, List.cons_append, List.append_assoc, List.nil_append]
      have hvalue := (Expr.spelled_operand value hvalue (.closeParen :: rest)).expression_of_operand
        hclose
      have htarget := Expr.spelled_operand target htarget
        (⟨.assign, "=", 0⟩ :: (value.tokens ++ .closeParen :: rest))
      have hassign : (Phrase.operation target (.assign target value)).Spelled _ _ :=
        .assign (t := ⟨.assign, "=", 0⟩) rfl hassignable hvalue
      exact .inParens (htarget.expression_of_operation (by decide) hassign hclose)
  | .new className args =>
      simp only [Expr.tokens, List.cons_append, List.append_assoc, List.nil_append]
      have hargs := Expr.spelled_expressions args h.2 (t := .closeParen) rfl (.closeParen :: rest)
      have hnew : (Phrase.operand (.new className args)).Spelled _ _ :=
        .new (t := ⟨.newWord, "new", 0⟩) (u := .name className) (v := .openParen) rfl rfl rfl hargs
      exact .inParens (hnew.expression_of_operand hclose)
  | .unary op operand =>
      obtain ⟨hop, hoperand⟩ := h
      simp only [Expr.tokens, List.cons_append, List.append_assoc, List.nil_append]
      have hlt : lowest ≤ Precedence.unary := by decide
      have hoperand := (Expr.spelled_operand operand hoperand
        (.closeParen :: rest)).expression_of_operand (Nat.le_trans hclose hlt)
      have hunary : (Phrase.operand (.unary op operand)).Spelled _ _ :=
        .unary (t := .operator op) (TokenKind.isUnary_ofOperator hop) hoperand
      exact .inParens (hunary.expression_of_operand hclose)
  | .binary left op right =>
      obtain ⟨hop, hleft, hright⟩ := h
      have hbinary := TokenKind.isBinary_ofOperator hop
      have hlt := TokenKind.lowest_lt_of_isBinary hbinary
      simp only [Expr.tokens, List.cons_append, List.append_assoc, List.nil_append]
      have hright := (Expr.spelled_operand right hright (.closeParen :: rest)).expression_of_operand
        (Nat.le_trans hclose (Nat.le_of_lt hlt))
      have hleft := Expr.spelled_operand left hleft
        (.operator op :: (right.tokens ++ .closeParen :: rest))
      have hwhole : (Phrase.operation left (.binary left op right)).Spelled _ _ :=
        .binary (t := .operator op) hbinary hright
      exact .inParens (hleft.expression_of_operation hlt hwhole hclose)
  | .logical left op right =>
      obtain ⟨hop, hleft, hright⟩ := h
      have hlogical := TokenKind.isLogical_ofOperator hop
      have hlt := TokenKind.lowest_lt_of_isLogical hlogical
      simp only [Expr.tokens, List.cons_append, List.append_assoc, List.nil_append]
      have hright := (Expr.spelled_operand right hright (.closeParen :: rest)).expression_of_operand
        (Nat.le_trans hclose (Nat.le_of_lt hlt))
      have hleft := Expr.spelled_operand left hleft
        (.operator op :: (right.tokens ++ .closeParen :: rest))
      have hwhole : (Phrase.operation left (.logical left op right)).Spelled _ _ :=
        .logical (t := .operator op) hlogical hright
      exact .inParens (hleft.expression_of_operation hlt hwhole hclose)
  | .cond condition consequence none =>
      obtain ⟨-, hcondition, hconsequence⟩ := h
      simp only [Expr.tokens, List.cons_append, List.append_assoc, List.nil_append]
      have hconsequence := Block.spelled_block consequence hconsequence (.closeParen :: rest)
      have hcondition := (Expr.spelled_operand condition hcondition
        (.closeParen :: .openBrace :: (Block.tokens consequence ++ .closeBrace :: .closeParen ::
          rest))).expression_of_operand (Nat.le_refl lowest)
      have hconditional : (Phrase.conditional (.cond condition consequence none)).Spelled _ _ :=
        .withoutElse (t := .openParen) rfl hcondition rfl rfl hconsequence TokenKind.noConfusion
      exact .inParens ((Phrase.Spelled.condition rfl hconditional).expression_of_operand hclose)
  | .cond condition consequence (some alternative) =>
      obtain ⟨-, hcondition, hconsequence, halternative⟩ := h
      simp only [Expr.tokens, List.cons_append, List.append_assoc, List.nil_append]
      have halternative := Block.spelled_block alternative halternative (.closeParen :: rest)
      have hconsequence := Block.spelled_block consequence hconsequence
        (⟨.elseWord, "else", 0⟩ :: .openBrace ::
          (Block.tokens alternative ++ .closeBrace :: .closeParen :: rest))
      have hcondition := (Expr.spelled_operand condition hcondition
        (.closeParen :: .openBrace :: (Block.tokens consequence ++ .closeBrace ::
          ⟨.elseWord, "else", 0⟩ :: .openBrace :: (Block.tokens alternative ++ .closeBrace ::
            .closeParen :: rest)))).expression_of_operand (Nat.le_refl lowest)
      have hconditional :
          (Phrase.conditional (.cond condition consequence (some alternative))).Spelled _ _ :=
        .withElse (t := .openParen) rfl hcondition rfl rfl hconsequence rfl rfl halternative
      exact .inParens ((Phrase.Spelled.condition rfl hconditional).expression_of_operand hclose)
  | .function literal =>
      simp only [Expr.tokens, List.cons_append, List.append_assoc, List.nil_append]
      have hliteral := FunctionLiteral.spelled_functionLiteral literal h.2 (.closeParen :: rest)
      exact .inParens ((Phrase.Spelled.function rfl hliteral).expression_of_operand hclose)
  | .call callee args =>
      obtain ⟨-, hcallee, hargs⟩ := h
      simp only [Expr.tokens, List.cons_append, List.append_assoc, List.nil_append]
      have hargs := Expr.spelled_expressions args hargs (t := .closeParen) rfl (.closeParen :: rest)
      have hcallee := Expr.spelled_operand callee hcallee
        (.openParen :: (Expr.tokensIn args ++ .closeParen :: .closeParen :: rest))
      have hcall : (Phrase.operation callee (.call callee args)).Spelled _ _ :=
        .call (t := .openParen) rfl hargs
      exact .inParens (hcallee.expression_of_operation (by decide) hcall hclose)

theorem Expr.spelled_expressions (es : List Expr) (h : Expr.ForallIn Expr.IsProper es) {t : Token}
    (ht : t.kind.endsList = true) (rest : List Token) :
    (Phrase.expressions t.kind es).Spelled (Expr.tokensIn es ++ t :: rest) rest := by
  match es with
  | [] => exact .noExpressions ht
  | e :: es =>
      obtain ⟨he, hes⟩ := h
      rw [Expr.tokensIn, List.append_assoc]
      have hahead := precedence_tokensInMore es ht rest
      have he := (Expr.spelled_operand e he
        (Expr.tokensInMore es ++ t :: rest)).expression_of_operand hahead
      exact .someExpressions he (Expr.spelled_moreExpressions es hes ht rest) ht

theorem Expr.spelled_moreExpressions (es : List Expr) (h : Expr.ForallIn Expr.IsProper es)
    {t : Token} (ht : t.kind.endsList = true) (rest : List Token) :
    (Phrase.moreExpressions es).Spelled (Expr.tokensInMore es ++ t :: rest) (t :: rest) := by
  match es with
  | [] =>
      refine .noMoreExpressions fun hcomma => ?_
      rw [Expr.tokensInMore, List.nil_append, aheadKind_cons] at hcomma
      rw [hcomma] at ht
      cases ht
  | e :: es =>
      obtain ⟨he, hes⟩ := h
      rw [Expr.tokensInMore, List.cons_append, List.append_assoc]
      have hahead := precedence_tokensInMore es ht rest
      have he := (Expr.spelled_operand e he
        (Expr.tokensInMore es ++ t :: rest)).expression_of_operand hahead
      exact .moreExpressions rfl he (Expr.spelled_moreExpressions es hes ht rest)

theorem Expr.spelled_pairs (pairs : List (Expr × Expr)) (h : Expr.ForallInPairs Expr.IsProper pairs)
    (rest : List Token) (hrest : aheadKind rest = .rbrace) :
    (Phrase.pairs pairs).Spelled (Expr.tokensInPairs pairs ++ rest) rest := by
  match pairs with
  | [] => exact .noPairs (.inl hrest)
  | [(key, value)] =>
      obtain ⟨hkey, hvalue, -⟩ := h
      have hend : (aheadKind rest).precedence ≤ lowest := by
        rw [hrest]
        decide
      rw [Expr.tokensInPairs, List.append_assoc, List.cons_append]
      have hkey := (Expr.spelled_operand key hkey
        (⟨.colon, ":", 0⟩ :: (value.tokens ++ rest))).expression_of_operand (Nat.le_refl lowest)
      have hvalue := (Expr.spelled_operand value hvalue rest).expression_of_operand hend
      exact .lastPair hkey rfl hvalue hrest
  | (key, value) :: pair :: pairs =>
      obtain ⟨hkey, hvalue, hpairs⟩ := h
      rw [Expr.tokensInPairs, List.append_assoc, List.cons_append, List.append_assoc,
        List.cons_append]
      have hkey := (Expr.spelled_operand key hkey (⟨.colon, ":", 0⟩ :: (value.tokens ++ .comma ::
        (Expr.tokensInPairs (pair :: pairs) ++ rest)))).expression_of_operand (Nat.le_refl lowest)
      have hvalue := (Expr.spelled_operand value hvalue (.comma ::
        (Expr.tokensInPairs (pair :: pairs) ++ rest))).expression_of_operand (Nat.le_refl lowest)
      exact .morePairs hkey rfl hvalue rfl (Expr.spelled_pairs (pair :: pairs) hpairs rest hrest)
      exact List.cons_ne_nil _ _

theorem Stmt.spelled_statement (s : Stmt) (h : s.Forall Expr.IsProper) (rest : List Token) :
    (Phrase.statement (some s)).Spelled (s.tokens ++ rest) rest := by
  have hend : Phrase.semicolon.Spelled (.semicolon :: rest) rest := .semicolon rfl
  have hahead : (aheadKind (.semicolon :: rest)).precedence ≤ lowest := Nat.le_refl _
  match s with
  | .letIn name value =>
      simp only [Stmt.tokens, List.cons_append, List.append_assoc, List.nil_append]
      have hvalue :=
        (Expr.spelled_operand value h (.semicolon :: rest)).expression_of_operand hahead
      exact .letIn (u := .name name) rfl rfl rfl hvalue hend
  | .ret value =>
      by_cases hmissing : value = .missing
      · subst hmissing
        exact .bareReturn rfl (.inl rfl) hend
      · rw [Stmt.forall_ret hmissing] at h
        simp only [Stmt.tokens, List.cons_append, List.append_assoc, List.nil_append]
        have hvalue :=
          (Expr.spelled_operand value h (.semicolon :: rest)).expression_of_operand hahead
        exact .ret rfl hvalue hend
  | .expr value =>
      simp only [Stmt.tokens, List.append_assoc, List.cons_append, List.nil_append]
      have hvalue :=
        (Expr.spelled_operand value h (.semicolon :: rest)).expression_of_operand hahead
      exact .expr (.expressionStatement hvalue hend)
  | .classDef name none methods =>
      simp only [Stmt.tokens, List.cons_append, List.append_assoc, List.nil_append]
      have hmethods := FunctionLiteral.spelled_methods methods h rest
      exact .classDef rfl (.baseClass (t := .name name) rfl rfl hmethods)
  | .classDef name (some superclass) methods =>
      simp only [Stmt.tokens, List.cons_append, List.append_assoc, List.nil_append]
      have hmethods := FunctionLiteral.spelled_methods methods h rest
      exact .classDef rfl
        (.subclass (t := .name name) (v := .name superclass) rfl rfl rfl rfl hmethods)

theorem Block.spelled_block (b : List Stmt) (h : Block.Forall Expr.IsProper b) (rest : List Token) :
    (Phrase.block b).Spelled (Block.tokens b ++ .closeBrace :: rest) rest := by
  match b with
  | [] => exact .emptyBlock rfl
  | s :: b =>
      obtain ⟨hs, hb⟩ := h
      rw [Block.tokens, List.append_assoc]
      have hs := Stmt.spelled_statement s hs (Block.tokens b ++ .closeBrace :: rest)
      exact .block hs (Block.spelled_block b hb rest)

theorem FunctionLiteral.spelled_functionLiteral (literal : FunctionLiteral)
    (h : literal.Forall Expr.IsProper) (rest : List Token) :
    (Phrase.functionLiteral literal).Spelled (literal.tokens ++ rest) rest := by
  match literal with
  | .mk params body =>
      simp only [FunctionLiteral.tokens, List.cons_append, List.append_assoc, List.nil_append]
      have hbody := Block.spelled_block body h rest
      exact .functionLiteral rfl (spelled_parameterTokens params _) rfl hbody

theorem FunctionLiteral.spelled_methods (methods : List (String × FunctionLiteral))
    (h : FunctionLiteral.ForallIn Expr.IsProper methods) (rest : List Token) :
    (Phrase.methods methods).Spelled (FunctionLiteral.tokensIn methods ++ .closeBrace :: rest)
      rest := by
  match methods with
  | [] => exact .noMethods rfl
  | (name, method) :: methods =>
      obtain ⟨hmethod, hmethods⟩ := h
      simp only [FunctionLiteral.tokensIn, List.cons_append, List.append_assoc]
      have hmethods := FunctionLiteral.spelled_methods methods hmethods rest
      have hmethod := FunctionLiteral.spelled_functionLiteral method hmethod
        (.semicolon :: (FunctionLiteral.tokensIn methods ++ .closeBrace :: rest))
      have hwhole : (Phrase.method name method).Spelled _ _ :=
        .method (t := .name name) (u := ⟨.assign, "=", 0⟩) (v := ⟨.funcWord, "func", 0⟩) rfl rfl rfl
          hmethod (.semicolon rfl)
      exact .methods rfl hwhole hmethods

end

/-- A program is spelled by its tokens, in front of an end token or the end of all tokens. -/
theorem Block.spelled_program (b : Block) (h : Block.Forall Expr.IsProper b) {rest : List Token}
    (hrest : aheadKind rest = .eof) :
    (Phrase.program b).Spelled (Block.tokens b ++ rest) rest := by
  induction b with
  | nil => exact .emptyProgram hrest
  | cons s b ih =>
      obtain ⟨hs, hb⟩ := h
      rw [Block.tokens, List.append_assoc]
      have hs := Stmt.spelled_statement s hs (Block.tokens b ++ rest)
      exact .program hs (ih hb)

/-- The tokens of a proper program, at whatever positions and with nothing or an end token behind
them, are read as that program and without a fault. -/
theorem written_programs_are_read {b : Block} (h : Block.Forall Expr.IsProper b)
    {ts rest : List Token} (hts : ts.map Token.bare = Block.tokens b)
    (hrest : aheadKind rest = .eof) : Reading.ofTokens (ts ++ rest) = ⟨b, []⟩ := by
  have hbare : aheadKind (rest.map Token.bare) = .eof := by
    rw [aheadKind_map_bare]
    exact hrest
  rw [← Reading.ofTokens_bare, List.map_append, hts]
  exact Reading.ofTokens_of_spelled (Block.spelled_program b h hbare)

/-- A program with a class, an assignment, a conditional and a map. -/
def mixedProgram : Block :=
  [.classDef "A" (some "B") [("m", .mk ["x", "y"] [.ret .missing])],
    .letIn "z" (.assign (.property .this "n") (.int 7 "07")),
    .expr (.cond (.unary "!" (.ident "z")) [.ret (.array [.null, .str "s"])]
      (some [.expr (.map [(.bool true, .super),
        (.binary (.int 1 "1") "-" .null, .call (.function (.mk [] [])) [.new "A" []])])]))]

theorem written_programs_are_read_of_mixedProgram :
    Block.Forall Expr.IsProper mixedProgram ∧
      Reading.ofTokens ((Block.tokens mixedProgram).map (fun t => { t with position := 5 }) ++
        [⟨.eof, "", 5⟩]) = ⟨mixedProgram, []⟩ := by
  have hproper : Block.Forall Expr.IsProper mixedProgram := by
    simp [mixedProgram, Block.Forall, Stmt.Forall, Expr.Forall, Expr.ForallIn, Expr.ForallInPairs,
      FunctionLiteral.Forall, FunctionLiteral.ForallIn, Expr.IsProper, DigitRow]
    decide
  exact ⟨hproper, written_programs_are_read hproper rfl rfl⟩

end Scripting
