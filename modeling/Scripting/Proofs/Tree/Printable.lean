import Scripting.Proofs.Reading.Written
import Scripting.Proofs.Token.Bare

/-!
# Trees that print as they are read

The printed form of a tree has parentheses around operators and indexings only. That is enough
where an assignment, which prints bare, stands in no operand. Such a printed form is described by
its tokens, put together along the tree as the text is.
-/

namespace Scripting

/-! ### Trees with a printed form to read back -/

/-- A word that is not reserved. -/
def IsPlainName (name : String) : Prop :=
  IsWord name ∧ TokenKind.ofWord name = .ident

instance (name : String) : Decidable (IsPlainName name) :=
  inferInstanceAs (Decidable (_ ∧ _))

/-- What a place in a printed form lets stand there. -/
inductive Binding where
  /-- No assignment: an operand, a callee, the object of a property. -/
  | tight
  /-- An assignment too: an element, an argument, a value. -/
  | loose

/-- The expressions that print as they are read, by the places where they may stand. -/
inductive Expr.Printable : Binding → Expr → Prop where
  | ident (h : IsPlainName name) : Printable .tight (.ident name)
  | int (h : Expr.IsProper (.int value literal)) : Printable .tight (.int value literal)
  | bool (value : Bool) : Printable .tight (.bool value)
  | null : Printable .tight .null
  | this : Printable .tight .this
  | super : Printable .tight .super
  | array (helements : ∀ e ∈ elements, Printable .loose e) : Printable .tight (.array elements)
  | map (hkeys : ∀ pair ∈ pairs, Printable .loose pair.1)
      (hvalues : ∀ pair ∈ pairs, Printable .loose pair.2) : Printable .tight (.map pairs)
  | index (htarget : Printable .tight target) (hposition : Printable .loose position) :
      Printable .tight (.index target position)
  | property (hobject : Printable .tight object) (hname : IsPlainName name) :
      Printable .tight (.property object name)
  | new (hname : IsPlainName className) (hargs : ∀ e ∈ args, Printable .loose e) :
      Printable .tight (.new className args)
  | unary (hop : op ∈ ["!", "-"]) (hoperand : Printable .tight operand) :
      Printable .tight (.unary op operand)
  | binary (hop : op ∈ ["+", "-", "*", "/", "<", ">", "==", "!="])
      (hleft : Printable .tight left) (hright : Printable .tight right) :
      Printable .tight (.binary left op right)
  | logical (hop : op ∈ ["&&", "||"]) (hleft : Printable .tight left)
      (hright : Printable .tight right) : Printable .tight (.logical left op right)
  | call (hcallee : Printable .tight callee) (hargs : ∀ e ∈ args, Printable .loose e) :
      Printable .tight (.call callee args)
  | print (hargs : ∀ e ∈ args, Printable .loose e) : Printable .tight (.call (.ident "print") args)
  | ofTight (h : Printable .tight e) : Printable .loose e
  /-- The target is a name or a property. -/
  | assign (hassignable : target.isAssignable = true) (htarget : Printable .tight target)
      (hvalue : Printable .loose value) : Printable .loose (.assign target value)

/-- The `let` and `return` statements that print as they are read. -/
inductive Stmt.Printable : Stmt → Prop where
  | letIn (hname : IsPlainName name) (hvalue : value.Printable .loose) :
      Printable (.letIn name value)
  | bareReturn : Printable (.ret .missing)
  | ret (hvalue : value.Printable .loose) : Printable (.ret value)

/-- Such statements, with at most one expression statement, which is the last: nothing is printed
between it and what follows. -/
inductive Block.Printable : Block → Prop where
  | nil : Printable []
  | expr (h : e.Printable .loose) : Printable [.expr e]
  | cons (hs : s.Printable) (hb : Printable b) : Printable (s :: b)

theorem Expr.Printable.ne_missing {binding : Binding} {e : Expr} (h : e.Printable binding) :
    e ≠ .missing := by
  rintro rfl
  cases h with
  | ofTight h => cases h

/-! ### Their tokens -/

namespace Token

def dot : Token := ⟨.dot, ".", 0⟩

def colon : Token := ⟨.colon, ":", 0⟩

def equals : Token := ⟨.assign, "=", 0⟩

/-- A word, reserved or not. -/
def word (s : String) : Token := ⟨.ofWord s, s, 0⟩

end Token

mutual

/-- The tokens of the printed form of an expression. Those that are not printed to be read back
have none here. -/
def Expr.printed : Expr → List Token
  | .ident name => [.word name]
  | .int _ literal => [⟨.int, literal, 0⟩]
  | .bool true => [.word "true"]
  | .bool false => [.word "false"]
  | .null => [.word "null"]
  | .this => [.word "this"]
  | .super => [.word "super"]
  | .array elements =>
      .openBracket :: ([Token.comma].intercalate (Expr.printedAll elements) ++ [.closeBracket])
  | .map pairs =>
      .openBrace :: ([Token.comma].intercalate (Expr.printedPairs pairs) ++ [.closeBrace])
  | .index target position =>
      .openParen :: (target.printed ++ .openBracket ::
        (position.printed ++ [.closeBracket, .closeParen]))
  | .property object name => object.printed ++ [.dot, .word name]
  | .assign target value => target.printed ++ .equals :: value.printed
  | .new className args =>
      .word "new" :: .word className :: .openParen ::
        ([Token.comma].intercalate (Expr.printedAll args) ++ [.closeParen])
  | .unary op operand => .openParen :: .operator op :: (operand.printed ++ [.closeParen])
  | .binary left op right =>
      .openParen :: (left.printed ++ .operator op :: (right.printed ++ [.closeParen]))
  | .logical left op right =>
      .openParen :: (left.printed ++ .operator op :: (right.printed ++ [.closeParen]))
  | .call callee args =>
      callee.printed ++ .openParen ::
        ([Token.comma].intercalate (Expr.printedAll args) ++ [.closeParen])
  | .missing | .str _ | .cond .. | .function _ => []

/-- The tokens of the printed forms of expressions, in order. -/
def Expr.printedAll : List Expr → List (List Token)
  | [] => []
  | e :: rest => e.printed :: Expr.printedAll rest

/-- The tokens of the printed forms of the pairs of a map, in order. -/
def Expr.printedPairs : List (Expr × Expr) → List (List Token)
  | [] => []
  | (key, value) :: rest => (key.printed ++ .colon :: value.printed) :: Expr.printedPairs rest

end

/-- The tokens of the printed form of a statement. -/
def Stmt.printed : Stmt → List Token
  | .letIn name value => .word "let" :: .word name :: .equals :: (value.printed ++ [.semicolon])
  | .ret value => .word "return" :: (value.printed ++ [.semicolon])
  | .expr value => value.printed
  | .classDef .. => []

/-- The tokens of the printed form of a block. -/
def Block.printed (b : Block) : List Token :=
  b.flatMap Stmt.printed

theorem Expr.printedAll_eq_map (es : List Expr) : Expr.printedAll es = es.map Expr.printed := by
  induction es with
  | nil => rfl
  | cons e es ih => rw [Expr.printedAll, ih, List.map_cons]

theorem Expr.printedPairs_eq_map (pairs : List (Expr × Expr)) :
    Expr.printedPairs pairs = pairs.map fun pair => pair.1.printed ++ .colon :: pair.2.printed := by
  induction pairs with
  | nil => rfl
  | cons pair pairs ih => rw [Expr.printedPairs, ih, List.map_cons]

end Scripting
