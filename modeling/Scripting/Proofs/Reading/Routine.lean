import Scripting.Reading
import Scripting.Proofs.Reading.Phrase

/-!
# What the grammar functions call

A grammar function takes tokens or looks at them, records faults and calls grammar functions. Its
routine writes that down as data, without fuel, so that its calls can be spoken of. The routines say
the same as the functions themselves: with one unit of fuel more than its calls have, a function
does what its routine does (`Call.answer_succ`).

A loop over tokens is a function that calls itself once more for each further round.
-/

namespace Scripting

open Precedence

namespace Step

variable {α : Type}

theorem ite_apply (p : Prop) [Decidable p] (x y : Step α) (ts : List Token) :
    (if p then x else y) ts = if p then x ts else y ts :=
  apply_ite (fun z : Step α => z ts) p x y

theorem peek_bind_apply (f : TokenKind → Step α) (ts : List Token) :
    (peek >>= f) ts = f (aheadKind ts) ts := rfl

theorem next_bind_apply (f : Token → Step α) (t : Token) (ts : List Token) :
    (next >>= f) (t :: ts) = f t ts := rfl

theorem expect_cons (wanted : TokenKind) (absent : α) (found : String → Step α) (t : Token)
    (ts : List Token) : expect wanted absent found (t :: ts) =
      if t.kind = wanted then found t.literal ts
      else ⟨absent, t :: ts, [.expected wanted t.kind]⟩ := rfl

end Step

namespace Grammar

/-- The grammar functions. -/
inductive Rule where
  | expression | operators | operand | operation | expressions | moreExpressions | pairs
  | conditional | parameters | moreParameters | functionLiteral | block | statement
  | expressionStatement | classDefinition | methods | method | program
  deriving DecidableEq, Repr

/-- A call of a grammar function, with what it is given besides the tokens, by the type of what it
gives. No operator is asked for that binds less tightly than any does. -/
inductive Call : Type → Type where
  | expression (precedence : Nat) (h : lowest ≤ precedence) : Call Expr
  | operators (precedence : Nat) (h : lowest ≤ precedence) (left : Expr) : Call Expr
  | operand (first : Token) : Call Expr
  | operation (left : Expr) (operator : Token) : Call Expr
  | expressions (close : TokenKind) : Call (List Expr)
  | moreExpressions : Call (List Expr)
  | pairs : Call (Option (List (Expr × Expr)))
  | conditional : Call Expr
  | parameters : Call (Option (List String))
  | moreParameters : Call (Option (List String))
  | functionLiteral : Call (Option FunctionLiteral)
  | block : Call Block
  | statement : Call (Option Stmt)
  | expressionStatement : Call (Option Stmt)
  | classDefinition : Call (Option Stmt)
  | methods : Call (Option (List (String × FunctionLiteral)))
  | method : Call (Option (String × FunctionLiteral))
  | program : Call Block

namespace Call

variable {β : Type}

/-- The grammar function that is called. -/
def rule : Call β → Rule
  | expression _ _ => .expression
  | operators _ _ _ => .operators
  | operand _ => .operand
  | operation _ _ => .operation
  | expressions _ => .expressions
  | moreExpressions => .moreExpressions
  | pairs => .pairs
  | conditional => .conditional
  | parameters => .parameters
  | moreParameters => .moreParameters
  | functionLiteral => .functionLiteral
  | block => .block
  | statement => .statement
  | expressionStatement => .expressionStatement
  | classDefinition => .classDefinition
  | methods => .methods
  | method => .method
  | program => .program

/-- What the called grammar function does with an amount of fuel. -/
def answer (fuel : Nat) ⦃β : Type⦄ : Call β → Step β
  | expression precedence _ => Grammar.expression fuel precedence
  | operators precedence _ left => Grammar.operators fuel precedence left
  | operand first => Grammar.operand fuel first
  | operation left operator => Grammar.operation fuel left operator
  | expressions close => Grammar.expressions fuel close
  | moreExpressions => Grammar.moreExpressions fuel
  | pairs => Grammar.pairs fuel
  | conditional => Grammar.conditional fuel
  | parameters => Grammar.parameters
  | moreParameters => Grammar.moreParameters
  | functionLiteral => Grammar.functionLiteral fuel
  | block => Grammar.block fuel
  | statement => Grammar.statement fuel
  | expressionStatement => Grammar.expressionStatement fuel
  | classDefinition => Grammar.classDefinition fuel
  | methods => Grammar.methods fuel
  | method => Grammar.method fuel
  | program => Grammar.program fuel

end Call

/-- What is done on each call. -/
abbrev Answers := ⦃β : Type⦄ → Call β → Step β

/-- What a grammar function does on its way to a result. -/
inductive Routine (α : Type) : Type 1 where
  | done (a : α)
  | taking (go : Token → Routine α)
  | looking (go : TokenKind → Routine α)
  | lookingFurther (go : TokenKind → Routine α)
  | reporting (e : SyntaxError) (go : Routine α)
  | calling {β : Type} (c : Call β) (go : β → Routine α)

namespace Routine

variable {α β : Type}

/-- Goes on with the result of a routine. -/
def bind : Routine α → (α → Routine β) → Routine β
  | done a, f => f a
  | taking go, f => taking fun t => (go t).bind f
  | looking go, f => looking fun kind => (go kind).bind f
  | lookingFurther go, f => lookingFurther fun kind => (go kind).bind f
  | reporting e go, f => reporting e (go.bind f)
  | calling c go, f => calling c fun a => (go a).bind f

instance : Monad Routine where
  pure := done
  bind := bind

/-- Takes the next token. -/
def next : Routine Token :=
  taking done

/-- Looks at the kind of the next token. -/
def peek : Routine TokenKind :=
  looking done

/-- Looks at the kind of the token after the next one. -/
def peekSecond : Routine TokenKind :=
  lookingFurther done

/-- Records an error. -/
def report (e : SyntaxError) : Routine Unit :=
  reporting e (done ())

/-- Calls a grammar function. -/
def call (c : Call β) : Routine β :=
  calling c done

/-- Calls for an expression with whatever operators there are. -/
def anyExpression : Routine Expr :=
  call (.expression lowest (Nat.le_refl _))

/-- Goes on with the literal of the next token if it is of the wanted kind; otherwise leaves it,
records that it was expected and gives `absent`. -/
def expect (wanted : TokenKind) (absent : α) (found : String → Routine α) : Routine α := do
  let ahead ← peek
  if ahead = wanted then
    let t ← next
    found t.literal
  else
    report (.expected wanted ahead)
    pure absent

/-- Takes the next token if it is a semicolon. -/
def skipSemicolon : Routine Unit := do
  if (← peek) = .semicolon then
    let _ ← next
    pure ()
  else
    pure ()

/-- What a routine does when its calls are answered. -/
def run (answer : Answers) : Routine α → Step α
  | done a => pure a
  | taking go => Step.next >>= fun t => (go t).run answer
  | looking go => Step.peek >>= fun kind => (go kind).run answer
  | lookingFurther go => Step.peekSecond >>= fun kind => (go kind).run answer
  | reporting e go => Step.report e >>= fun _ => go.run answer
  | calling c go => answer c >>= fun a => (go a).run answer

section

variable (answer : Answers)

@[simp] theorem run_pure (a : α) : (pure a : Routine α).run answer = pure a := rfl

@[simp] theorem run_bind (r : Routine α) (f : α → Routine β) :
    (r >>= f).run answer = r.run answer >>= fun a => (f a).run answer := by
  change (r.bind f).run answer = _
  induction r with
  | done a => rw [bind, run, pure_bind]
  | taking go ih | looking go ih | lookingFurther go ih | calling c go ih =>
      rw [bind, run, run, bind_assoc]
      exact congrArg _ (funext ih)
  | reporting e go ih =>
      rw [bind, run, run, bind_assoc]
      exact congrArg _ (funext fun _ => ih)

@[simp] theorem run_next : next.run answer = Step.next :=
  bind_pure Step.next

@[simp] theorem run_peek : peek.run answer = Step.peek :=
  bind_pure Step.peek

@[simp] theorem run_peekSecond : peekSecond.run answer = Step.peekSecond :=
  bind_pure Step.peekSecond

@[simp] theorem run_report (e : SyntaxError) : (report e).run answer = Step.report e :=
  bind_pure (Step.report e)

@[simp] theorem run_call (c : Call β) : (call c).run answer = answer c :=
  bind_pure (answer c)

@[simp] theorem run_anyExpression :
    anyExpression.run answer = answer (.expression lowest (Nat.le_refl _)) :=
  run_call answer _

@[simp] theorem run_ite (p : Prop) [Decidable p] (r s : Routine α) :
    (if p then r else s).run answer = if p then r.run answer else s.run answer :=
  apply_ite (run answer) p r s

@[simp] theorem run_expect (wanted : TokenKind) (absent : α) (found : String → Routine α) :
    (expect wanted absent found).run answer =
      Step.expect wanted absent fun s => (found s).run answer := by
  funext ts
  simp only [expect, run_bind, run_peek, run_ite, run_next, run_report, run_pure]
  rw [Step.bind_apply, Step.peek_apply]
  by_cases h : Step.aheadKind ts = wanted
  · rw [if_pos h, Step.expect, if_pos h]
    cases ts <;> rfl
  · rw [if_neg h, Step.expect_of_ne _ _ h]
    rfl

@[simp] theorem run_skipSemicolon : skipSemicolon.run answer = Step.skipSemicolon := by
  funext ts
  simp only [skipSemicolon, run_bind, run_peek, run_ite, run_next, run_pure]
  rw [Step.bind_apply, Step.peek_apply]
  by_cases h : Step.aheadKind ts = .semicolon
  · rw [if_pos h, Step.skipSemicolon, if_pos h]
    cases ts <;> rfl
  · rw [if_neg h, Step.skipSemicolon_of_ne h]
    rfl

end

end Routine

open Routine

/-- What an integer literal is read as. -/
def integerRoutine (literal : String) : Routine Expr := do
  let digits := (literalDigits literal).length
  if digitLimit < digits then
    report (.literalTooLong digits)
    pure .missing
  else if largestInteger < literalValue literal then
    report (.integerTooLarge literal)
    pure .missing
  else
    pure (.int (literalValue literal) literal)

/-- The routine of a grammar function. -/
def Call.routine {β : Type} : Call β → Routine β
  | expression precedence h => do
      let first ← next
      if first.kind.opensOperand then
        let left ← call (.operand first)
        call (.operators precedence h left)
      else
        report (.noOperand first.kind)
        pure .missing
  | operators precedence h left => do
      if precedence < (← peek).precedence then
        let operator ← next
        let whole ← call (.operation left operator)
        call (.operators precedence h whole)
      else
        pure left
  | operand first =>
      match first.kind with
      | .ident => pure (.ident first.literal)
      | .int => integerRoutine first.literal
      | .string => pure (.str first.literal)
      | .trueWord => pure (.bool true)
      | .falseWord => pure (.bool false)
      | .nullWord => pure .null
      | .thisWord => pure .this
      | .superWord => pure .super
      | .bang | .minus => return .unary first.literal (← call (.expression unary (by decide)))
      | .lparen => do
          let inner ← anyExpression
          Routine.expect .rparen .missing fun _ => pure inner
      | .ifWord => call .conditional
      | .funcWord => return (← call .functionLiteral).elim .missing .function
      | .printWord =>
          Routine.expect .lparen .missing fun _ =>
            return .call (.ident first.literal) (← call (.expressions .rparen))
      | .lbracket => return .array (← call (.expressions .rbracket))
      | .lbrace => do
          match ← call .pairs with
          | none => pure .missing
          | some rows => Routine.expect .rbrace .missing fun _ => pure (.map rows)
      | .newWord =>
          Routine.expect .ident .missing fun name =>
            Routine.expect .lparen .missing fun _ =>
              return .new name (← call (.expressions .rparen))
      | _ => pure .missing
  | operation left operator =>
      match operator.kind with
      | .and | .or =>
          return .logical left operator.literal
            (← call (.expression operator.kind.precedence (TokenKind.lowest_le_precedence _)))
      | .lparen => return .call left (← call (.expressions .rparen))
      | .lbracket => do
          let position ← anyExpression
          Routine.expect .rbracket .missing fun _ => pure (.index left position)
      | .dot => Routine.expect .ident .missing fun name => pure (.property left name)
      | .assign => do
          if left.isAssignable then pure ()
          else report (.invalidTarget left.render)
          return .assign left (← anyExpression)
      | _ =>
          return .binary left operator.literal
            (← call (.expression operator.kind.precedence (TokenKind.lowest_le_precedence _)))
  | expressions close => do
      if (← peek) = close then
        let _ ← next
        pure []
      else
        let first ← anyExpression
        let more ← call .moreExpressions
        Routine.expect close () fun _ => pure ()
        pure (first :: more)
  | moreExpressions => do
      if (← peek) = .comma then
        let _ ← next
        let first ← anyExpression
        let more ← call .moreExpressions
        pure (first :: more)
      else
        pure []
  | pairs => do
      let ahead ← peek
      if ahead = .rbrace ∨ ahead = .eof then
        pure (some [])
      else
        let key ← anyExpression
        Routine.expect .colon none fun _ => do
          let value ← anyExpression
          if (← peek) = .rbrace then
            pure (some [(key, value)])
          else
            Routine.expect .comma none fun _ =>
              return (← call .pairs).map ((key, value) :: ·)
  | conditional =>
      Routine.expect .lparen .missing fun _ => do
        let condition ← anyExpression
        Routine.expect .rparen .missing fun _ =>
          Routine.expect .lbrace .missing fun _ => do
            let consequence ← call .block
            if (← peek) = .elseWord then
              let _ ← next
              if (← peek) = .ifWord then
                let _ ← next
                let nested ← call .conditional
                pure (.cond condition consequence (some [.expr nested]))
              else
                Routine.expect .lbrace .missing fun _ =>
                  return .cond condition consequence (some (← call .block))
            else
              pure (.cond condition consequence none)
  | parameters => do
      if (← peek) = .rparen then
        let _ ← next
        pure (some [])
      else
        Routine.expect .ident none fun name => do
          let more ← call .moreParameters
          pure (more.map (name :: ·))
  | moreParameters => do
      if (← peek) = .comma then
        let _ ← next
        Routine.expect .ident none fun name => do
          let more ← call .moreParameters
          pure (more.map (name :: ·))
      else
        Routine.expect .rparen none fun _ => pure (some [])
  | functionLiteral =>
      Routine.expect .lparen none fun _ => do
        match ← call .parameters with
        | none => pure none
        | some params =>
            Routine.expect .lbrace none fun _ => return some (.mk params (← call .block))
  | block => do
      let ahead ← peek
      if ahead = .rbrace then
        let _ ← next
        pure []
      else if ahead = .eof then
        report (.expected .rbrace .eof)
        let _ ← next
        pure []
      else
        let first ← call .statement
        let more ← call .block
        pure (first.toList ++ more)
  | statement => do
      match ← peek with
      | .letWord =>
          let _ ← next
          Routine.expect .ident none fun name =>
            Routine.expect .assign none fun _ => do
              let value ← anyExpression
              Routine.skipSemicolon
              pure (some (.letIn name value))
      | .returnWord =>
          let _ ← next
          let ahead ← peek
          if ahead = .semicolon ∨ ahead = .rbrace then
            Routine.skipSemicolon
            pure (some (.ret .missing))
          else
            let value ← anyExpression
            Routine.skipSemicolon
            pure (some (.ret value))
      | .classWord =>
          let _ ← next
          call .classDefinition
      | .semicolon =>
          let _ ← next
          pure none
      | .funcWord =>
          if (← peekSecond) = .ident then
            let _ ← next
            let name ← next
            match ← call .functionLiteral with
            | none => pure none
            | some literal =>
                Routine.skipSemicolon
                pure (some (.letIn name.literal (.function literal)))
          else
            call .expressionStatement
      | _ => call .expressionStatement
  | expressionStatement => do
      let value ← anyExpression
      Routine.skipSemicolon
      pure (some (.expr value))
  | classDefinition =>
      Routine.expect .ident none fun name => do
        if (← peek) = .extendsWord then
          let _ ← next
          Routine.expect .ident none fun superclass =>
            Routine.expect .lbrace none fun _ =>
              return (← call .methods).map (.classDef name (some superclass))
        else
          Routine.expect .lbrace none fun _ =>
            return (← call .methods).map (.classDef name none)
  | methods => do
      let ahead ← next
      match ahead.kind with
      | .rbrace => pure (some [])
      | .eof =>
          report (.expected .rbrace .eof)
          pure none
      | .letWord =>
          let first ← call .method
          return (← call .methods).map (first.toList ++ ·)
      | .semicolon => call .methods
      | kind =>
          report (.expected .letWord kind)
          call .methods
  | method =>
      Routine.expect .ident none fun name =>
        Routine.expect .assign none fun _ =>
          Routine.expect .funcWord none fun _ => do
            match ← call .functionLiteral with
            | none => pure none
            | some literal =>
                Routine.skipSemicolon
                pure (some (name, literal))
  | program => do
      if (← peek) = .eof then
        pure []
      else
        let first ← call .statement
        let more ← call .program
        pure (first.toList ++ more)

@[simp] theorem run_integerRoutine (answer : Answers) (literal : String) :
    (integerRoutine literal).run answer = integer literal := by
  simp only [integerRoutine, run_ite, run_bind, run_report, run_pure, integer]

/-- The further parameters are read without fuel, so that the fuel of the calls does not matter. -/
theorem moreParameters_eq_run (fuel : Nat) :
    Grammar.moreParameters = Call.moreParameters.routine.run (Call.answer fuel) := by
  funext ts
  rw [Grammar.moreParameters.eq_def, Call.routine]
  simp only [run_bind, run_peek, run_ite, run_next, run_expect, run_call, run_pure, Call.answer]
  cases ts with
  | nil => rfl
  | cons t ts =>
      rw [Step.peek_bind_apply, Step.aheadKind_cons, Step.ite_apply]
      cases ts with
      | nil => rfl
      | cons u ts =>
          rw [Step.next_bind_apply, Step.expect_cons, Step.expect_cons, Step.bind_apply]
          simp

/-- With one unit of fuel more than its calls, a grammar function does what its routine does. -/
theorem Call.answer_succ {β : Type} (fuel : Nat) (c : Call β) :
    c.answer (fuel + 1) = c.routine.run (Call.answer fuel) := by
  cases c with
  | moreParameters => exact moreParameters_eq_run fuel
  | operand first =>
      rw [answer, Grammar.operand, routine]
      cases first.kind
      case lbrace =>
        rw [run_bind, run_call]
        exact bind_congr fun rows => by cases rows <;> simp
      all_goals simp [answer]
  | operation left operator =>
      obtain ⟨kind, literal, position⟩ := operator
      rw [answer, Grammar.operation, routine]
      cases kind <;> simp [answer]
  | functionLiteral =>
      rw [answer, Grammar.functionLiteral, routine, run_expect]
      refine congrArg _ (funext fun _ => ?_)
      rw [run_bind, run_call]
      exact bind_congr fun names => by cases names <;> simp [answer]
  | statement =>
      rw [answer, Grammar.statement, routine, run_bind, run_peek]
      refine bind_congr fun ahead => ?_
      cases ahead
      case funcWord =>
        simp only [run_bind, run_peekSecond, run_ite, run_next, run_call, answer]
        refine bind_congr fun second => ite_congr rfl (fun _ => ?_) fun _ => rfl
        refine bind_congr fun _ => bind_congr fun name => bind_congr fun literal => ?_
        cases literal <;> simp
      all_goals simp [answer]
  | methods =>
      rw [answer, Grammar.methods, routine, run_bind, run_next]
      refine bind_congr fun ahead => ?_
      cases ahead.kind <;> simp [answer]
  | method =>
      rw [answer, Grammar.method, routine]
      simp only [run_expect, run_bind, run_call, answer]
      refine congrArg _ (funext fun name => congrArg _ (funext fun _ => ?_))
      refine congrArg _ (funext fun _ => bind_congr fun literal => ?_)
      cases literal <;> simp
  -- In the other functions nothing but calls and looking ahead decides how they go on.
  | _ =>
      simp [answer, routine, Grammar.expression, Grammar.operators, Grammar.expressions,
        Grammar.moreExpressions, Grammar.pairs, Grammar.conditional, Grammar.parameters,
        Grammar.block, Grammar.expressionStatement, Grammar.classDefinition, Grammar.program]

end Grammar

end Scripting
