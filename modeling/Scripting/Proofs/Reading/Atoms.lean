import Scripting.Proofs.Reading.Extent
import Scripting.Proofs.Reading.Soundness

/-!
# Atoms

The atoms of a program are its names, literals and operators in the order in which they are written.
The tree of a faultless reading has exactly the atoms of the tokens up to the end: reading loses,
repeats and reorders nothing, and passes over nothing that it does not know.
-/

namespace Scripting

open Step

/-- A name, a literal, a word or an operator. -/
inductive Atom where
  | name (name : String)
  | integer (literal : String)
  | text (text : String)
  | truth (b : Bool)
  | null
  | this
  | super
  | operator (literal : String)
  deriving DecidableEq, Repr

/-- The atom that a token stands for. -/
def Token.atom? (t : Token) : Option Atom :=
  match t.kind with
  | .ident | .printWord => some (.name t.literal)
  | .int => some (.integer t.literal)
  | .string => some (.text t.literal)
  | .trueWord => some (.truth true)
  | .falseWord => some (.truth false)
  | .nullWord => some .null
  | .thisWord => some .this
  | .superWord => some .super
  | .plus | .minus | .asterisk | .slash | .lt | .gt | .eq | .notEq | .and | .or | .bang =>
      some (.operator t.literal)
  | _ => none

mutual

/-- The atoms of an expression. -/
def Expr.atoms : Expr → List Atom
  | .missing => []
  | .ident name => [.name name]
  | .int _ literal => [.integer literal]
  | .str value => [.text value]
  | .bool value => [.truth value]
  | .null => [.null]
  | .this => [.this]
  | .super => [.super]
  | .array elements => Expr.atomsIn elements
  | .map pairs => Expr.atomsInPairs pairs
  | .index target position => target.atoms ++ position.atoms
  | .property object name => object.atoms ++ [.name name]
  | .assign target value => target.atoms ++ value.atoms
  | .new className args => .name className :: Expr.atomsIn args
  | .unary op operand => .operator op :: operand.atoms
  | .binary left op right => left.atoms ++ .operator op :: right.atoms
  | .logical left op right => left.atoms ++ .operator op :: right.atoms
  | .cond condition consequence none => condition.atoms ++ Block.atoms consequence
  | .cond condition consequence (some alternative) =>
      condition.atoms ++ Block.atoms consequence ++ Block.atoms alternative
  | .function literal => literal.atoms
  | .call callee args => callee.atoms ++ Expr.atomsIn args

/-- The atoms of some expressions. -/
def Expr.atomsIn : List Expr → List Atom
  | [] => []
  | e :: rest => e.atoms ++ Expr.atomsIn rest

/-- The atoms of the pairs of a map. -/
def Expr.atomsInPairs : List (Expr × Expr) → List Atom
  | [] => []
  | (key, value) :: rest => key.atoms ++ value.atoms ++ Expr.atomsInPairs rest

/-- The atoms of a statement. -/
def Stmt.atoms : Stmt → List Atom
  | .letIn name value => .name name :: value.atoms
  | .ret value => value.atoms
  | .expr value => value.atoms
  | .classDef name superclass methods =>
      .name name :: superclass.toList.map .name ++ FunctionLiteral.atomsIn methods

/-- The atoms of a block. -/
def Block.atoms : List Stmt → List Atom
  | [] => []
  | s :: rest => s.atoms ++ Block.atoms rest

/-- The atoms of a function behind its first word. -/
def FunctionLiteral.atoms : FunctionLiteral → List Atom
  | .mk params body => params.map .name ++ Block.atoms body

/-- The atoms of the methods of a class. -/
def FunctionLiteral.atomsIn : List (String × FunctionLiteral) → List Atom
  | [] => []
  | (name, method) :: rest => .name name :: method.atoms ++ FunctionLiteral.atomsIn rest

end

/-- The atoms that tokens stand for. -/
def atomsOf (ts : List Token) : List Atom :=
  ts.filterMap Token.atom?

/-- The kinds whose tokens stand for no atom. -/
def TokenKind.isMark : TokenKind → Bool
  | .illegal | .assign | .comma | .semicolon | .colon | .dot | .lparen | .rparen | .lbrace
  | .rbrace | .lbracket | .rbracket | .funcWord | .letWord | .ifWord | .elseWord | .returnWord
  | .classWord | .newWord | .extendsWord | .eof | .other _ => true
  | _ => false

theorem TokenKind.isMark_of_endsList {kind : TokenKind} (h : kind.endsList = true) :
    kind.isMark = true := by
  cases kind <;> first | rfl | cases h

section

variable {t : Token} {ts rest : List Token} {e : Expr}

theorem atomsOf_cons (t : Token) (ts : List Token) :
    atomsOf (t :: ts) = t.atom?.toList ++ atomsOf ts := by
  cases h : t.atom? <;> simp [atomsOf, h]

theorem atomsOf_append (ts rest : List Token) : atomsOf (ts ++ rest) = atomsOf ts ++ atomsOf rest :=
  List.filterMap_append

theorem atomsOf_mark {kind : TokenKind} (ht : t.kind = kind) (hk : kind.isMark = true) :
    atomsOf (t :: ts) = atomsOf ts := by
  have hnone : t.atom? = none := by
    subst ht
    cases h : t.kind <;> simp_all [TokenKind.isMark, Token.atom?]
  rw [atomsOf_cons, hnone]
  rfl

theorem atomsOf_ident (ht : t.kind = .ident) :
    atomsOf (t :: ts) = .name t.literal :: atomsOf ts := by
  rw [atomsOf_cons, Token.atom?, ht]
  rfl

theorem atomsOf_print (ht : t.kind = .printWord) :
    atomsOf (t :: ts) = .name t.literal :: atomsOf ts := by
  rw [atomsOf_cons, Token.atom?, ht]
  rfl

theorem atomsOf_leaf (h : t.leaf? = some e) : atomsOf (t :: ts) = e.atoms ++ atomsOf ts := by
  have hatom : t.atom?.toList = e.atoms := by
    cases hk : t.kind <;> simp [Token.leaf?, hk] at h
    case int =>
      obtain ⟨-, rfl⟩ := h
      simp [Token.atom?, hk, Expr.atoms]
    all_goals
      subst h
      simp [Token.atom?, hk, Expr.atoms]
  rw [atomsOf_cons, hatom]

theorem atomsOf_operator
    (h : t.kind.isUnary = true ∨ t.kind.isBinary = true ∨ t.kind.isLogical = true) :
    atomsOf (t :: ts) = .operator t.literal :: atomsOf ts := by
  have hatom : t.atom? = some (.operator t.literal) := by
    cases hk : t.kind <;>
      simp_all [TokenKind.isUnary, TokenKind.isBinary, TokenKind.isLogical, Token.atom?]
  rw [atomsOf_cons, hatom]
  rfl

end

theorem Block.atoms_append (b b' : Block) :
    Block.atoms (b ++ b') = Block.atoms b ++ Block.atoms b' := by
  induction b with
  | nil => rfl
  | cons s b ih => rw [List.cons_append, Block.atoms, Block.atoms, ih, List.append_assoc]

namespace Phrase

variable {phrase : Phrase} {ts rest : List Token}

/-- The atoms of what stands to the left of a phrase. -/
def atomsBefore : Phrase → List Atom
  | operators _ left _ | operation left _ => left.atoms
  | _ => []

/-- The atoms of what a phrase stands for, with those to the left of it. -/
def atoms : Phrase → List Atom
  | expression _ e | operators _ _ e | operand e | operation _ e | conditional e => e.atoms
  | expressions _ es | moreExpressions es => Expr.atomsIn es
  | pairs ps => Expr.atomsInPairs ps
  | parameters names | moreParameters names => names.map .name
  | functionLiteral literal => literal.atoms
  | block b | program b => Block.atoms b
  | semicolon => []
  | expressionStatement s | classDefinition s => s.atoms
  | statement s => Block.atoms s.toList
  | methods ms => FunctionLiteral.atomsIn ms
  | method name literal => .name name :: literal.atoms

/-- Parts that follow each other have their atoms one after another. -/
theorem joined {before between after first second : List Atom} (h : before = first ++ between)
    (h' : between = second ++ after) : before = (first ++ second) ++ after := by
  rw [h, h', List.append_assoc]

/-- An atom that leads tokens leads their atoms. -/
theorem led (a : Atom) {before after first : List Atom} (h : before = first ++ after) :
    a :: before = (a :: first) ++ after := by
  rw [h, List.cons_append]

/-- The atoms of a phrase are those of the tokens that spell it. -/
theorem Spelled.atoms_eq (h : phrase.Spelled ts rest) :
    phrase.atomsBefore ++ atomsOf ts = phrase.atoms ++ atomsOf rest := by
  induction h with
  | expression _ _ ih1 ih2 => exact ih1.trans ih2
  | noOperator => rfl
  | operator _ _ _ ih1 ih2 => exact ih1.trans ih2
  | leaf h => exact atomsOf_leaf h
  | unary ht _ ih =>
      rw [atomsOf_operator (.inl ht)]
      exact led _ ih
  | grouped ht _ hu ih =>
      rw [atomsOf_mark hu rfl] at ih
      rw [atomsOf_mark ht rfl]
      exact ih
  | condition ht _ ih =>
      rw [atomsOf_mark ht rfl]
      exact ih
  | function ht _ ih =>
      rw [atomsOf_mark ht rfl]
      exact ih
  | print ht hu _ ih =>
      rw [atomsOf_print ht, atomsOf_mark hu rfl]
      exact led _ ih
  | array ht _ ih =>
      rw [atomsOf_mark ht rfl]
      exact ih
  | map ht _ hu ih =>
      rw [atomsOf_mark hu rfl] at ih
      rw [atomsOf_mark ht rfl]
      exact ih
  | new ht hu hv _ ih =>
      rw [atomsOf_mark ht rfl, atomsOf_ident hu, atomsOf_mark hv rfl]
      exact led _ ih
  | binary ht _ ih =>
      rw [atomsOf_operator (.inr (.inl ht))]
      exact joined rfl (led _ ih)
  | logical ht _ ih =>
      rw [atomsOf_operator (.inr (.inr ht))]
      exact joined rfl (led _ ih)
  | call ht _ ih =>
      rw [atomsOf_mark ht rfl]
      exact joined rfl ih
  | index ht _ hu ih =>
      rw [atomsOf_mark hu rfl] at ih
      rw [atomsOf_mark ht rfl]
      exact joined rfl ih
  | property ht hu =>
      rw [atomsOf_mark ht rfl, atomsOf_ident hu]
      exact joined rfl rfl
  | assign ht _ _ ih =>
      rw [atomsOf_mark ht rfl]
      exact joined rfl ih
  | noExpressions ht => exact atomsOf_mark rfl (TokenKind.isMark_of_endsList ht)
  | someExpressions _ _ ht ih1 ih2 =>
      rw [atomsOf_mark rfl (TokenKind.isMark_of_endsList ht)] at ih2
      exact joined ih1 ih2
  | noMoreExpressions => rfl
  | moreExpressions ht _ _ ih1 ih2 =>
      rw [atomsOf_mark ht rfl]
      exact joined ih1 ih2
  | noPairs => rfl
  | lastPair _ ht _ _ ih1 ih2 =>
      rw [atomsOf_mark ht rfl] at ih1
      exact joined (joined ih1 ih2) rfl
  | morePairs _ ht _ hu _ ih1 ih2 ih3 =>
      rw [atomsOf_mark ht rfl] at ih1
      rw [atomsOf_mark hu rfl] at ih2
      exact joined (joined ih1 ih2) ih3
  | withoutElse ht _ hu hv _ _ ih1 ih2 =>
      rw [atomsOf_mark hu rfl, atomsOf_mark hv rfl] at ih1
      rw [atomsOf_mark ht rfl]
      exact joined ih1 ih2
  | withElse ht _ hu hv _ hw hx _ ih1 ih2 ih3 =>
      rw [atomsOf_mark hu rfl, atomsOf_mark hv rfl] at ih1
      rw [atomsOf_mark hw rfl, atomsOf_mark hx rfl] at ih2
      rw [atomsOf_mark ht rfl]
      exact joined (joined ih1 ih2) ih3
  | elseIf ht _ hu hv _ hw hx _ ih1 ih2 ih3 =>
      rw [atomsOf_mark hu rfl, atomsOf_mark hv rfl] at ih1
      rw [atomsOf_mark hw rfl, atomsOf_mark hx rfl] at ih2
      rw [atomsOf_mark ht rfl]
      exact joined (joined ih1 ih2) (joined ih3 rfl)
  | noParameters ht => exact atomsOf_mark ht rfl
  | someParameters ht _ ih =>
      rw [atomsOf_ident ht]
      exact led _ ih
  | noMoreParameters ht => exact atomsOf_mark ht rfl
  | moreParameters ht hu _ ih =>
      rw [atomsOf_mark ht rfl, atomsOf_ident hu]
      exact led _ ih
  | functionLiteral ht _ hu _ ih1 ih2 =>
      rw [atomsOf_mark hu rfl] at ih1
      rw [atomsOf_mark ht rfl]
      exact joined ih1 ih2
  | emptyBlock ht => exact atomsOf_mark ht rfl
  | block _ _ ih1 ih2 =>
      rw [atoms, Block.atoms_append]
      exact joined ih1 ih2
  | semicolon ht => exact atomsOf_mark ht rfl
  | noSemicolon => rfl
  | expressionStatement _ _ ih1 ih2 => exact ih1.trans (congrArg _ ih2)
  | emptyStatement ht => exact atomsOf_mark ht rfl
  | expr _ ih => exact joined ih rfl
  | letIn ht hu hv _ _ ih1 ih2 =>
      rw [atomsOf_mark ht rfl, atomsOf_ident hu, atomsOf_mark hv rfl]
      exact led _ (joined ih1 ih2)
  | bareReturn ht _ _ ih =>
      rw [atomsOf_mark ht rfl]
      exact ih
  | ret ht _ _ ih1 ih2 =>
      rw [atomsOf_mark ht rfl]
      exact joined ih1 ih2
  | namedFunction ht hu _ _ ih1 ih2 =>
      rw [atomsOf_mark ht rfl, atomsOf_ident hu]
      exact led _ (joined ih1 ih2)
  | classDef ht _ ih =>
      rw [atomsOf_mark ht rfl]
      exact joined ih rfl
  | baseClass ht hu _ ih =>
      rw [atomsOf_ident ht, atomsOf_mark hu rfl]
      exact led _ ih
  | subclass ht hu hv hw _ ih =>
      rw [atomsOf_ident ht, atomsOf_mark hu rfl, atomsOf_ident hv, atomsOf_mark hw rfl]
      exact led _ (led _ ih)
  | noMethods ht => exact atomsOf_mark ht rfl
  | strayMethods ht _ ih =>
      rw [atomsOf_mark ht rfl]
      exact ih
  | methods ht _ _ ih1 ih2 =>
      rw [atomsOf_mark ht rfl]
      exact joined ih1 ih2
  | method ht hu hv _ _ ih1 ih2 =>
      rw [atomsOf_ident ht, atomsOf_mark hu rfl, atomsOf_mark hv rfl]
      exact led _ (ih1.trans (congrArg _ ih2))
  | emptyProgram => rfl
  | program _ _ ih1 ih2 =>
      rw [atoms, Block.atoms_append]
      exact joined ih1 ih2

end Phrase

/-- A reading without faults keeps the atoms: no token up to the first end token is illegal or of an
unknown kind, and the atoms of the tree, from left to right, are those of these tokens. -/
theorem atoms_are_kept {ts : List Token} (h : (Reading.ofTokens ts).errors = []) :
    (∀ t ∈ ts.takeWhile (·.kind != .eof), t.kind ≠ .illegal ∧ ∀ name, t.kind ≠ .other name) ∧
      Block.atoms (Reading.ofTokens ts).program = atomsOf (ts.takeWhile (·.kind != .eof)) := by
  obtain ⟨rest, hspelled⟩ := Reading.program_spelled h
  have hend : aheadKind rest = .eof := hspelled.endsBefore
  obtain ⟨seg, rfl, hseg⟩ := hspelled.taken
  have hproper : ∀ t ∈ seg, t.kind.isProper = true := hseg
  have hbefore : ∀ t ∈ seg, (t.kind != .eof) = true := by
    intro t ht
    exact TokenKind.ne_eof_of_isProper (hproper t ht)
  have hread : (seg ++ rest).takeWhile (·.kind != .eof) = seg := by
    rw [List.takeWhile_append_of_pos hbefore]
    cases rest with
    | nil => exact List.append_nil seg
    | cons t rest =>
        have hfirst : ¬(t.kind != .eof) = true := by
          rw [aheadKind_cons] at hend
          rw [hend]
          decide
        rw [List.takeWhile_cons, if_neg hfirst, List.append_nil]
  rw [hread]
  constructor
  · intro t ht
    have hkind := hproper t ht
    constructor
    · intro hk
      rw [hk] at hkind
      cases hkind
    · intro name hk
      rw [hk] at hkind
      cases hkind
  · have hatoms : atomsOf (seg ++ rest) = _ := hspelled.atoms_eq
    rw [atomsOf_append] at hatoms
    exact (List.append_cancel_right hatoms).symm

/-- Tokens of a `let`, with others behind the end token. -/
def letThenEnd : List Token :=
  [⟨.letWord, "let", 0⟩, ⟨.ident, "x", 4⟩, ⟨.assign, "=", 6⟩, ⟨.minus, "-", 8⟩, ⟨.ident, "y", 9⟩,
    ⟨.dot, ".", 10⟩, ⟨.ident, "z", 11⟩, ⟨.and, "&&", 13⟩, ⟨.printWord, "print", 16⟩,
    ⟨.lparen, "(", 21⟩, ⟨.int, "07", 22⟩, ⟨.rparen, ")", 24⟩, ⟨.semicolon, ";", 25⟩, ⟨.eof, "", 26⟩,
    ⟨.illegal, "?", 27⟩, ⟨.ident, "w", 28⟩]

theorem atoms_are_kept_of_letThenEnd :
    (Reading.ofTokens letThenEnd).errors = [] ∧
      Block.atoms (Reading.ofTokens letThenEnd).program =
        [.name "x", .operator "-", .name "y", .name "z", .operator "&&", .name "print",
          .integer "07"] :=
  ⟨by decide, (atoms_are_kept (by decide)).2⟩

end Scripting
