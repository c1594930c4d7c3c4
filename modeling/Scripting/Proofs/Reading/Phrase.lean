import Scripting.Reading.Grammar

/-!
# The language

What the faultless parts of a program are and how they are spelled. A phrase is a part of a
program together with what it stands for; `Phrase.Spelled phrase ts rest` says that the tokens `ts`
begin with a spelling of the phrase and go on with `rest`. The relation knows no fuel, no faults and
no order of trying: it is the language that the grammar functions read.

The kind of the first token of `rest` plays a part, as operators are taken while they bind tighter
than the precedence asked for, and a semicolon behind a statement belongs to it.
-/

namespace Scripting

open Step Precedence

/-- The expression that a token is by itself. -/
def Token.leaf? (t : Token) : Option Expr :=
  match t.kind with
  | .ident => some (.ident t.literal)
  | .int =>
      if (literalDigits t.literal).length ≤ digitLimit ∧
          literalValue t.literal ≤ largestInteger then
        some (.int (literalValue t.literal) t.literal)
      else none
  | .string => some (.str t.literal)
  | .trueWord => some (.bool true)
  | .falseWord => some (.bool false)
  | .nullWord => some .null
  | .thisWord => some .this
  | .superWord => some .super
  | _ => none

namespace TokenKind

/-- The operators with one operand. -/
def isUnary : TokenKind → Bool
  | .bang | .minus => true
  | _ => false

/-- The operators with two operands that are both evaluated. -/
def isBinary : TokenKind → Bool
  | .plus | .minus | .asterisk | .slash | .lt | .gt | .eq | .notEq => true
  | _ => false

/-- The operators whose right operand may stay unevaluated. -/
def isLogical : TokenKind → Bool
  | .and | .or => true
  | _ => false

/-- The brackets that end a list of expressions. -/
def endsList : TokenKind → Bool
  | .rparen | .rbracket => true
  | _ => false

theorem lowest_le_precedence (kind : TokenKind) : lowest ≤ kind.precedence := by
  unfold TokenKind.precedence
  split <;> decide

end TokenKind

/-- A part of a program with what it stands for. -/
inductive Phrase where
  | expression (precedence : Nat) (e : Expr)
  /-- The operators behind `left` that make `whole` of it. -/
  | operators (precedence : Nat) (left whole : Expr)
  | operand (e : Expr)
  /-- An operator and what belongs to it, making `whole` of `left`. -/
  | operation (left whole : Expr)
  | expressions (close : TokenKind) (es : List Expr)
  | moreExpressions (es : List Expr)
  | pairs (pairs : List (Expr × Expr))
  | conditional (e : Expr)
  | parameters (names : List String)
  | moreParameters (names : List String)
  | functionLiteral (literal : FunctionLiteral)
  | block (b : Block)
  /-- The semicolon that may stand behind a statement. -/
  | semicolon
  | expressionStatement (s : Stmt)
  | statement (s : Option Stmt)
  | classDefinition (s : Stmt)
  | methods (methods : List (String × FunctionLiteral))
  | method (name : String) (literal : FunctionLiteral)
  | program (b : Block)

namespace Phrase

/-- The tokens begin with a spelling of the phrase, and the others are left. -/
inductive Spelled : Phrase → List Token → List Token → Prop where
  | expression (hleft : Spelled (.operand left) ts mid)
      (hwhole : Spelled (.operators precedence left whole) mid rest) :
      Spelled (.expression precedence whole) ts rest
  | noOperator (h : (aheadKind rest).precedence ≤ precedence) :
      Spelled (.operators precedence left left) rest rest
  | operator (h : precedence < t.kind.precedence)
      (hjoined : Spelled (.operation left joined) (t :: ts) mid)
      (hwhole : Spelled (.operators precedence joined whole) mid rest) :
      Spelled (.operators precedence left whole) (t :: ts) rest
  -- Operands.
  | leaf (h : t.leaf? = some e) : Spelled (.operand e) (t :: rest) rest
  | unary (ht : t.kind.isUnary = true) (h : Spelled (.expression Precedence.unary e) ts rest) :
      Spelled (.operand (.unary t.literal e)) (t :: ts) rest
  | grouped (ht : t.kind = .lparen) (h : Spelled (.expression lowest e) ts (u :: rest))
      (hu : u.kind = .rparen) : Spelled (.operand e) (t :: ts) rest
  | condition (ht : t.kind = .ifWord) (h : Spelled (.conditional e) ts rest) :
      Spelled (.operand e) (t :: ts) rest
  | function (ht : t.kind = .funcWord) (h : Spelled (.functionLiteral literal) ts rest) :
      Spelled (.operand (.function literal)) (t :: ts) rest
  | print (ht : t.kind = .printWord) (hu : u.kind = .lparen)
      (h : Spelled (.expressions .rparen es) ts rest) :
      Spelled (.operand (.call (.ident t.literal) es)) (t :: u :: ts) rest
  | array (ht : t.kind = .lbracket) (h : Spelled (.expressions .rbracket es) ts rest) :
      Spelled (.operand (.array es)) (t :: ts) rest
  | map (ht : t.kind = .lbrace) (h : Spelled (.pairs ps) ts (u :: rest))
      (hu : u.kind = .rbrace) : Spelled (.operand (.map ps)) (t :: ts) rest
  | new (ht : t.kind = .newWord) (hu : u.kind = .ident) (hv : v.kind = .lparen)
      (h : Spelled (.expressions .rparen es) ts rest) :
      Spelled (.operand (.new u.literal es)) (t :: u :: v :: ts) rest
  -- Operations.
  | binary (ht : t.kind.isBinary = true)
      (h : Spelled (.expression t.kind.precedence e) ts rest) :
      Spelled (.operation left (.binary left t.literal e)) (t :: ts) rest
  | logical (ht : t.kind.isLogical = true)
      (h : Spelled (.expression t.kind.precedence e) ts rest) :
      Spelled (.operation left (.logical left t.literal e)) (t :: ts) rest
  | call (ht : t.kind = .lparen) (h : Spelled (.expressions .rparen es) ts rest) :
      Spelled (.operation left (.call left es)) (t :: ts) rest
  | index (ht : t.kind = .lbracket) (h : Spelled (.expression lowest e) ts (u :: rest))
      (hu : u.kind = .rbracket) : Spelled (.operation left (.index left e)) (t :: ts) rest
  | property (ht : t.kind = .dot) (hu : u.kind = .ident) :
      Spelled (.operation left (.property left u.literal)) (t :: u :: rest) rest
  | assign (ht : t.kind = .assign) (hleft : left.isAssignable = true)
      (h : Spelled (.expression lowest e) ts rest) :
      Spelled (.operation left (.assign left e)) (t :: ts) rest
  -- Lists of expressions and of pairs.
  | noExpressions (ht : t.kind.endsList = true) :
      Spelled (.expressions t.kind []) (t :: rest) rest
  | someExpressions (h : Spelled (.expression lowest e) ts mid)
      (hes : Spelled (.moreExpressions es) mid (t :: rest)) (ht : t.kind.endsList = true) :
      Spelled (.expressions t.kind (e :: es)) ts rest
  | noMoreExpressions (h : aheadKind rest ≠ .comma) : Spelled (.moreExpressions []) rest rest
  | moreExpressions (ht : t.kind = .comma) (h : Spelled (.expression lowest e) ts mid)
      (hes : Spelled (.moreExpressions es) mid rest) :
      Spelled (.moreExpressions (e :: es)) (t :: ts) rest
  | noPairs (h : aheadKind rest = .rbrace ∨ aheadKind rest = .eof) :
      Spelled (.pairs []) rest rest
  | lastPair (hkey : Spelled (.expression lowest key) ts (t :: mid)) (ht : t.kind = .colon)
      (hvalue : Spelled (.expression lowest value) mid rest) (hrest : aheadKind rest = .rbrace) :
      Spelled (.pairs [(key, value)]) ts rest
  | morePairs (hkey : Spelled (.expression lowest key) ts (t :: mid)) (ht : t.kind = .colon)
      (hvalue : Spelled (.expression lowest value) mid (u :: us)) (hu : u.kind = .comma)
      (hps : Spelled (.pairs ps) us rest) : Spelled (.pairs ((key, value) :: ps)) ts rest
  -- Conditionals, behind their first word.
  | withoutElse (ht : t.kind = .lparen) (h : Spelled (.expression lowest e) ts (u :: v :: mid))
      (hu : u.kind = .rparen) (hv : v.kind = .lbrace) (hb : Spelled (.block b) mid rest)
      (hrest : aheadKind rest ≠ .elseWord) :
      Spelled (.conditional (.cond e b none)) (t :: ts) rest
  | withElse (ht : t.kind = .lparen) (h : Spelled (.expression lowest e) ts (u :: v :: mid))
      (hu : u.kind = .rparen) (hv : v.kind = .lbrace) (hb : Spelled (.block b) mid (w :: x :: us))
      (hw : w.kind = .elseWord) (hx : x.kind = .lbrace)
      (halternative : Spelled (.block alternative) us rest) :
      Spelled (.conditional (.cond e b (some alternative))) (t :: ts) rest
  | elseIf (ht : t.kind = .lparen) (h : Spelled (.expression lowest e) ts (u :: v :: mid))
      (hu : u.kind = .rparen) (hv : v.kind = .lbrace) (hb : Spelled (.block b) mid (w :: x :: us))
      (hw : w.kind = .elseWord) (hx : x.kind = .ifWord)
      (hnested : Spelled (.conditional nested) us rest) :
      Spelled (.conditional (.cond e b (some [.expr nested]))) (t :: ts) rest
  -- Functions, behind their first word, and blocks, behind their opening brace.
  | noParameters (ht : t.kind = .rparen) : Spelled (.parameters []) (t :: rest) rest
  | someParameters (ht : t.kind = .ident) (h : Spelled (.moreParameters names) ts rest) :
      Spelled (.parameters (t.literal :: names)) (t :: ts) rest
  | noMoreParameters (ht : t.kind = .rparen) : Spelled (.moreParameters []) (t :: rest) rest
  | moreParameters (ht : t.kind = .comma) (hu : u.kind = .ident)
      (h : Spelled (.moreParameters names) ts rest) :
      Spelled (.moreParameters (u.literal :: names)) (t :: u :: ts) rest
  | functionLiteral (ht : t.kind = .lparen) (h : Spelled (.parameters names) ts (u :: mid))
      (hu : u.kind = .lbrace) (hb : Spelled (.block b) mid rest) :
      Spelled (.functionLiteral (.mk names b)) (t :: ts) rest
  | emptyBlock (ht : t.kind = .rbrace) : Spelled (.block []) (t :: rest) rest
  | block (hs : Spelled (.statement first) ts mid) (hb : Spelled (.block b) mid rest) :
      Spelled (.block (first.toList ++ b)) ts rest
  -- Statements.
  | semicolon (ht : t.kind = .semicolon) : Spelled .semicolon (t :: rest) rest
  | noSemicolon (h : aheadKind rest ≠ .semicolon) : Spelled .semicolon rest rest
  | expressionStatement (h : Spelled (.expression lowest e) ts mid)
      (hend : Spelled .semicolon mid rest) : Spelled (.expressionStatement (.expr e)) ts rest
  | emptyStatement (ht : t.kind = .semicolon) : Spelled (.statement none) (t :: rest) rest
  | expr (h : Spelled (.expressionStatement s) ts rest) : Spelled (.statement (some s)) ts rest
  | letIn (ht : t.kind = .letWord) (hu : u.kind = .ident) (hv : v.kind = .assign)
      (h : Spelled (.expression lowest e) ts mid) (hend : Spelled .semicolon mid rest) :
      Spelled (.statement (some (.letIn u.literal e))) (t :: u :: v :: ts) rest
  | bareReturn (ht : t.kind = .returnWord)
      (hts : aheadKind ts = .semicolon ∨ aheadKind ts = .rbrace)
      (hend : Spelled .semicolon ts rest) :
      Spelled (.statement (some (.ret .missing))) (t :: ts) rest
  | ret (ht : t.kind = .returnWord) (h : Spelled (.expression lowest e) ts mid)
      (hend : Spelled .semicolon mid rest) : Spelled (.statement (some (.ret e))) (t :: ts) rest
  | namedFunction (ht : t.kind = .funcWord) (hu : u.kind = .ident)
      (h : Spelled (.functionLiteral literal) ts mid) (hend : Spelled .semicolon mid rest) :
      Spelled (.statement (some (.letIn u.literal (.function literal)))) (t :: u :: ts) rest
  | classDef (ht : t.kind = .classWord) (h : Spelled (.classDefinition s) ts rest) :
      Spelled (.statement (some s)) (t :: ts) rest
  -- Classes, behind their first word.
  | baseClass (ht : t.kind = .ident) (hu : u.kind = .lbrace)
      (h : Spelled (.methods ms) ts rest) :
      Spelled (.classDefinition (.classDef t.literal none ms)) (t :: u :: ts) rest
  | subclass (ht : t.kind = .ident) (hu : u.kind = .extendsWord) (hv : v.kind = .ident)
      (hw : w.kind = .lbrace) (h : Spelled (.methods ms) ts rest) :
      Spelled (.classDefinition (.classDef t.literal (some v.literal) ms)) (t :: u :: v :: w :: ts)
        rest
  | noMethods (ht : t.kind = .rbrace) : Spelled (.methods []) (t :: rest) rest
  | strayMethods (ht : t.kind = .semicolon) (h : Spelled (.methods ms) ts rest) :
      Spelled (.methods ms) (t :: ts) rest
  | methods (ht : t.kind = .letWord) (h : Spelled (.method name literal) ts mid)
      (hms : Spelled (.methods ms) mid rest) :
      Spelled (.methods ((name, literal) :: ms)) (t :: ts) rest
  | method (ht : t.kind = .ident) (hu : u.kind = .assign) (hv : v.kind = .funcWord)
      (h : Spelled (.functionLiteral literal) ts mid) (hend : Spelled .semicolon mid rest) :
      Spelled (.method t.literal literal) (t :: u :: v :: ts) rest
  -- Programs.
  | emptyProgram (h : aheadKind rest = .eof) : Spelled (.program []) rest rest
  | program (hs : Spelled (.statement first) ts mid) (hb : Spelled (.program b) mid rest) :
      Spelled (.program (first.toList ++ b)) ts rest

end Phrase

end Scripting
