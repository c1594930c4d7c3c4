import Scripting.Token
import Scripting.Reading.Error

/-!
# Steps of reading

A step takes the tokens that lie ahead, and gives what it read, the tokens that it left and the
errors that it recorded. Steps are chained with `do`: the errors of a chain are those of its
parts in order (`bind_apply`), so what a step does never depends on the errors before it.

The end of the token list stands for an endless run of end tokens; taking one there changes
nothing. `expect` looks before it takes.
-/

namespace Scripting

/-- What a step of reading gives. -/
structure StepResult (α : Type) where
  value : α
  rest : List Token
  errors : List SyntaxError

/-- A step of reading. -/
def Step (α : Type) := List Token → StepResult α

namespace Step

variable {α β : Type}

instance : Monad Step where
  pure a ts := ⟨a, ts, []⟩
  bind x f ts :=
    let r := x ts
    let s := f r.value r.rest
    ⟨s.value, s.rest, r.errors ++ s.errors⟩

@[simp] theorem pure_apply (a : α) (ts : List Token) : (pure a : Step α) ts = ⟨a, ts, []⟩ := rfl

theorem bind_apply (x : Step α) (f : α → Step β) (ts : List Token) :
    (x >>= f) ts =
      ⟨(f (x ts).value (x ts).rest).value, (f (x ts).value (x ts).rest).rest,
        (x ts).errors ++ (f (x ts).value (x ts).rest).errors⟩ := rfl

theorem map_apply (f : α → β) (x : Step α) (ts : List Token) :
    (f <$> x) ts = ⟨f (x ts).value, (x ts).rest, (x ts).errors⟩ :=
  congrArg (StepResult.mk _ _) (List.append_nil _)

instance : LawfulMonad Step := LawfulMonad.mk' Step
  (fun x => by funext ts; simp [map_apply])
  (fun a f => by funext ts; simp [bind_apply])
  (fun x f g => by funext ts; simp [bind_apply, List.append_assoc])

/-- The kind of the first token of a list; the end of the list counts as an end token. -/
def aheadKind : List Token → TokenKind
  | [] => .eof
  | t :: _ => t.kind

@[simp] theorem aheadKind_nil : aheadKind [] = .eof := rfl

@[simp] theorem aheadKind_cons (t : Token) (ts : List Token) : aheadKind (t :: ts) = t.kind := rfl

/-- Looks at the kind of the next token. -/
def peek : Step TokenKind := fun ts => ⟨aheadKind ts, ts, []⟩

@[simp] theorem peek_apply (ts : List Token) : peek ts = ⟨aheadKind ts, ts, []⟩ := rfl

/-- Looks at the kind of the token after the next one. -/
def peekSecond : Step TokenKind := fun ts => ⟨aheadKind ts.tail, ts, []⟩

@[simp] theorem peekSecond_apply (ts : List Token) :
    peekSecond ts = ⟨aheadKind ts.tail, ts, []⟩ := rfl

/-- Takes the next token. -/
def next : Step Token
  | [] => ⟨⟨.eof, "", 0⟩, [], []⟩
  | t :: ts => ⟨t, ts, []⟩

@[simp] theorem next_nil : next [] = ⟨⟨.eof, "", 0⟩, [], []⟩ := rfl

@[simp] theorem next_cons (t : Token) (ts : List Token) : next (t :: ts) = ⟨t, ts, []⟩ := rfl

/-- Records an error. -/
def report (e : SyntaxError) : Step Unit := fun ts => ⟨(), ts, [e]⟩

@[simp] theorem report_apply (e : SyntaxError) (ts : List Token) :
    report e ts = ⟨(), ts, [e]⟩ := rfl

/-- Goes on with the literal of the next token if it is of the wanted kind; otherwise leaves it,
records that it was expected and gives `absent`. -/
def expect (wanted : TokenKind) (absent : α) (found : String → Step α) : Step α := fun ts =>
  if aheadKind ts = wanted then found (next ts).value.literal ts.tail
  else ⟨absent, ts, [.expected wanted (aheadKind ts)]⟩

theorem expect_of_eq {wanted : TokenKind} (absent : α) (found : String → Step α) {t : Token}
    (ts : List Token) (h : t.kind = wanted) :
    expect wanted absent found (t :: ts) = found t.literal ts :=
  if_pos h

theorem expect_of_ne {wanted : TokenKind} (absent : α) (found : String → Step α) {ts : List Token}
    (h : aheadKind ts ≠ wanted) :
    expect wanted absent found ts = ⟨absent, ts, [.expected wanted (aheadKind ts)]⟩ :=
  if_neg h

/-- Takes the next token if it is a semicolon. -/
def skipSemicolon : Step Unit := fun ts =>
  if aheadKind ts = .semicolon then ⟨(), ts.tail, []⟩ else ⟨(), ts, []⟩

theorem skipSemicolon_of_eq {t : Token} (ts : List Token) (h : t.kind = .semicolon) :
    skipSemicolon (t :: ts) = ⟨(), ts, []⟩ :=
  if_pos h

theorem skipSemicolon_of_ne {ts : List Token} (h : aheadKind ts ≠ .semicolon) :
    skipSemicolon ts = ⟨(), ts, []⟩ :=
  if_neg h

end Step

end Scripting
