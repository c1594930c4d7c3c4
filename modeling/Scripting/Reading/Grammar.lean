import Scripting.Tree.Printed
import Scripting.Reading.Step

/-!
# The grammar

Statements are read by their first token, expressions by precedence climbing: an operand, then
every operator that binds tighter than the precedence asked for. A fault is recorded and reading
goes on behind it, with a missing expression in the place of what could not be read.

The grammar functions call each other, and each call is given one unit of `fuel` less. Every
loop and every nested expression takes at least one token, so a small multiple of the number of
tokens is always enough (`fuelFor`). A function without fuel behaves as at the end of the tokens:
it reports an error, so that it never passes off a part as the whole, and leaves no tokens.
-/

namespace Scripting

namespace Precedence

/-- No operator. -/
def lowest : Nat := 1

/-- The operand of `!` and `-`. -/
def unary : Nat := 8

end Precedence

/-- How tightly an operator of a kind binds; a kind that is no operator has the lowest
precedence. -/
def TokenKind.precedence : TokenKind → Nat
  | .assign => 2
  | .and | .or => 3
  | .eq | .notEq => 4
  | .lt | .gt => 5
  | .plus | .minus => 6
  | .slash | .asterisk => 7
  | .lparen | .lbracket | .dot => 9
  | _ => Precedence.lowest

/-- Whether an expression can start with a token of a kind. -/
def TokenKind.opensOperand : TokenKind → Bool
  | .ident | .int | .string | .bang | .minus | .trueWord | .falseWord | .nullWord | .thisWord
  | .superWord | .lparen | .ifWord | .funcWord | .printWord | .lbracket | .lbrace
  | .newWord => true
  | _ => false

namespace Grammar

/-- The fuel with which any reading of a token list comes to its end. -/
def fuelFor (ts : List Token) : Nat :=
  8 * ts.length + 8

/-- What a function without fuel does: it reports an error, gives `absent` and leaves nothing. -/
def outOfFuel {α : Type} (absent : α) : Step α := fun _ =>
  ⟨absent, [], [.noOperand .eof]⟩

/-- The integer of a literal. -/
def integer (literal : String) : Step Expr := do
  let digits := (literalDigits literal).length
  if digitLimit < digits then
    Step.report (.literalTooLong digits)
    pure .missing
  else if largestInteger < literalValue literal then
    Step.report (.integerTooLarge literal)
    pure .missing
  else
    pure (.int (literalValue literal) literal)

/-- The further parameters of a function and the closing parenthesis. -/
def moreParameters : Step (Option (List String))
  | [] => ⟨none, [], [.expected .rparen .eof]⟩
  | t :: rest =>
      if t.kind = .comma then
        match rest with
        | [] => ⟨none, [], [.expected .ident .eof]⟩
        | u :: rest =>
            if u.kind = .ident then
              let more := moreParameters rest
              ⟨more.value.map (u.literal :: ·), more.rest, more.errors⟩
            else ⟨none, u :: rest, [.expected .ident u.kind]⟩
      else if t.kind = .rparen then ⟨some [], rest, []⟩
      else ⟨none, t :: rest, [.expected .rparen t.kind]⟩

/-- The parameters of a function, behind the opening parenthesis. -/
def parameters : Step (Option (List String)) := do
  if (← Step.peek) = .rparen then
    let _ ← Step.next
    pure (some [])
  else
    Step.expect .ident none fun name => do
      let more ← moreParameters
      pure (more.map (name :: ·))

mutual

/-- An expression whose operators all bind tighter than `precedence`. -/
def expression (fuel precedence : Nat) : Step Expr :=
  match fuel with
  | 0 => outOfFuel .missing
  | fuel + 1 => do
      let first ← Step.next
      if first.kind.opensOperand then
        let left ← operand fuel first
        operators fuel precedence left
      else
        Step.report (.noOperand first.kind)
        pure .missing

/-- The operators behind `left` that bind tighter than `precedence`, with their operands. -/
def operators (fuel precedence : Nat) (left : Expr) : Step Expr :=
  match fuel with
  | 0 => outOfFuel .missing
  | fuel + 1 => do
      if precedence < (← Step.peek).precedence then
        let operator ← Step.next
        let whole ← operation fuel left operator
        operators fuel precedence whole
      else
        pure left

/-- What an operand's first token opens. -/
def operand (fuel : Nat) (first : Token) : Step Expr :=
  match fuel with
  | 0 => outOfFuel .missing
  | fuel + 1 =>
      match first.kind with
      | .ident => pure (.ident first.literal)
      | .int => integer first.literal
      | .string => pure (.str first.literal)
      | .trueWord => pure (.bool true)
      | .falseWord => pure (.bool false)
      | .nullWord => pure .null
      | .thisWord => pure .this
      | .superWord => pure .super
      | .bang | .minus => return .unary first.literal (← expression fuel Precedence.unary)
      | .lparen => do
          let inner ← expression fuel Precedence.lowest
          Step.expect .rparen .missing fun _ => pure inner
      | .ifWord => conditional fuel
      | .funcWord => return (← functionLiteral fuel).elim .missing .function
      | .printWord =>
          Step.expect .lparen .missing fun _ =>
            return .call (.ident first.literal) (← expressions fuel .rparen)
      | .lbracket => return .array (← expressions fuel .rbracket)
      | .lbrace => do
          match ← pairs fuel with
          | none => pure .missing
          | some pairs => Step.expect .rbrace .missing fun _ => pure (.map pairs)
      | .newWord =>
          Step.expect .ident .missing fun name =>
            Step.expect .lparen .missing fun _ =>
              return .new name (← expressions fuel .rparen)
      | _ => pure .missing

/-- The operation of an operator token on the expression to its left. -/
def operation (fuel : Nat) (left : Expr) (operator : Token) : Step Expr :=
  match fuel with
  | 0 => outOfFuel .missing
  | fuel + 1 =>
      match operator.kind with
      | .and | .or =>
          return .logical left operator.literal (← expression fuel operator.kind.precedence)
      | .lparen => return .call left (← expressions fuel .rparen)
      | .lbracket => do
          let position ← expression fuel Precedence.lowest
          Step.expect .rbracket .missing fun _ => pure (.index left position)
      | .dot => Step.expect .ident .missing fun name => pure (.property left name)
      | .assign => do
          if left.isAssignable then pure ()
          else Step.report (.invalidTarget left.render)
          return .assign left (← expression fuel Precedence.lowest)
      | _ => return .binary left operator.literal (← expression fuel operator.kind.precedence)

/-- Expressions with commas between them, up to and with a closing token. -/
def expressions (fuel : Nat) (close : TokenKind) : Step (List Expr) :=
  match fuel with
  | 0 => outOfFuel []
  | fuel + 1 => do
      if (← Step.peek) = close then
        let _ ← Step.next
        pure []
      else
        let first ← expression fuel Precedence.lowest
        let more ← moreExpressions fuel
        Step.expect close () fun _ => pure ()
        pure (first :: more)

/-- Further expressions, each behind a comma. -/
def moreExpressions (fuel : Nat) : Step (List Expr) :=
  match fuel with
  | 0 => outOfFuel []
  | fuel + 1 => do
      if (← Step.peek) = .comma then
        let _ ← Step.next
        let first ← expression fuel Precedence.lowest
        let more ← moreExpressions fuel
        pure (first :: more)
      else
        pure []

/-- The pairs of a map, up to its closing brace, or `none` if one of them is broken. -/
def pairs (fuel : Nat) : Step (Option (List (Expr × Expr))) :=
  match fuel with
  | 0 => outOfFuel none
  | fuel + 1 => do
      let ahead ← Step.peek
      if ahead = .rbrace ∨ ahead = .eof then
        pure (some [])
      else
        let key ← expression fuel Precedence.lowest
        Step.expect .colon none fun _ => do
          let value ← expression fuel Precedence.lowest
          if (← Step.peek) = .rbrace then
            pure (some [(key, value)])
          else
            Step.expect .comma none fun _ =>
              return (← pairs fuel).map ((key, value) :: ·)

/-- A conditional, behind its `if`. -/
def conditional (fuel : Nat) : Step Expr :=
  match fuel with
  | 0 => outOfFuel .missing
  | fuel + 1 =>
      Step.expect .lparen .missing fun _ => do
        let condition ← expression fuel Precedence.lowest
        Step.expect .rparen .missing fun _ =>
          Step.expect .lbrace .missing fun _ => do
            let consequence ← block fuel
            if (← Step.peek) = .elseWord then
              let _ ← Step.next
              if (← Step.peek) = .ifWord then
                let _ ← Step.next
                let nested ← conditional fuel
                pure (.cond condition consequence (some [.expr nested]))
              else
                Step.expect .lbrace .missing fun _ =>
                  return .cond condition consequence (some (← block fuel))
            else
              pure (.cond condition consequence none)

/-- The parameters and the body of a function, or `none` if its head is broken. -/
def functionLiteral (fuel : Nat) : Step (Option FunctionLiteral) :=
  match fuel with
  | 0 => outOfFuel none
  | fuel + 1 =>
      Step.expect .lparen none fun _ => do
        match ← parameters with
        | none => pure none
        | some params =>
            Step.expect .lbrace none fun _ => return some (.mk params (← block fuel))

/-- The statements of a block and its closing brace, behind the opening one. -/
def block (fuel : Nat) : Step Block :=
  match fuel with
  | 0 => outOfFuel []
  | fuel + 1 => do
      let ahead ← Step.peek
      if ahead = .rbrace then
        let _ ← Step.next
        pure []
      else if ahead = .eof then
        Step.report (.expected .rbrace .eof)
        let _ ← Step.next
        pure []
      else
        let first ← statement fuel
        let more ← block fuel
        pure (first.toList ++ more)

/-- A statement, or `none` for an empty one and for one that is broken. -/
def statement (fuel : Nat) : Step (Option Stmt) :=
  match fuel with
  | 0 => outOfFuel none
  | fuel + 1 => do
      match ← Step.peek with
      | .letWord =>
          let _ ← Step.next
          Step.expect .ident none fun name =>
            Step.expect .assign none fun _ => do
              let value ← expression fuel Precedence.lowest
              Step.skipSemicolon
              pure (some (.letIn name value))
      | .returnWord =>
          let _ ← Step.next
          let ahead ← Step.peek
          if ahead = .semicolon ∨ ahead = .rbrace then
            Step.skipSemicolon
            pure (some (.ret .missing))
          else
            let value ← expression fuel Precedence.lowest
            Step.skipSemicolon
            pure (some (.ret value))
      | .classWord =>
          let _ ← Step.next
          classDefinition fuel
      | .semicolon =>
          let _ ← Step.next
          pure none
      | .funcWord =>
          if (← Step.peekSecond) = .ident then
            let _ ← Step.next
            let name ← Step.next
            match ← functionLiteral fuel with
            | none => pure none
            | some literal =>
                Step.skipSemicolon
                pure (some (.letIn name.literal (.function literal)))
          else
            expressionStatement fuel
      | _ => expressionStatement fuel

/-- An expression as a statement. -/
def expressionStatement (fuel : Nat) : Step (Option Stmt) :=
  match fuel with
  | 0 => outOfFuel none
  | fuel + 1 => do
      let value ← expression fuel Precedence.lowest
      Step.skipSemicolon
      pure (some (.expr value))

/-- A class, behind its `class`. -/
def classDefinition (fuel : Nat) : Step (Option Stmt) :=
  match fuel with
  | 0 => outOfFuel none
  | fuel + 1 =>
      Step.expect .ident none fun name => do
        if (← Step.peek) = .extendsWord then
          let _ ← Step.next
          Step.expect .ident none fun superclass =>
            Step.expect .lbrace none fun _ =>
              return (← methods fuel).map (.classDef name (some superclass))
        else
          Step.expect .lbrace none fun _ =>
            return (← methods fuel).map (.classDef name none)

/-- The methods of a class and its closing brace, or `none` if the brace never comes. -/
def methods (fuel : Nat) : Step (Option (List (String × FunctionLiteral))) :=
  match fuel with
  | 0 => outOfFuel none
  | fuel + 1 => do
      let ahead ← Step.next
      match ahead.kind with
      | .rbrace => pure (some [])
      | .eof =>
          Step.report (.expected .rbrace .eof)
          pure none
      | .letWord =>
          let first ← method fuel
          return (← methods fuel).map (first.toList ++ ·)
      | .semicolon => methods fuel
      | kind =>
          Step.report (.expected .letWord kind)
          methods fuel

/-- A method of a class, behind its `let`, or `none` if it is broken. -/
def method (fuel : Nat) : Step (Option (String × FunctionLiteral)) :=
  match fuel with
  | 0 => outOfFuel none
  | fuel + 1 =>
      Step.expect .ident none fun name =>
        Step.expect .assign none fun _ =>
          Step.expect .funcWord none fun _ => do
            match ← functionLiteral fuel with
            | none => pure none
            | some literal =>
                Step.skipSemicolon
                pure (some (name, literal))

end

/-- The statements up to the first end token that stands where a statement could start. -/
def program (fuel : Nat) : Step Block :=
  match fuel with
  | 0 => outOfFuel []
  | fuel + 1 => do
      if (← Step.peek) = .eof then
        pure []
      else
        let first ← statement fuel
        let more ← program fuel
        pure (first.toList ++ more)

end Grammar

end Scripting
