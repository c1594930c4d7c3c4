import Scripting.Number.Digit
import Scripting.Token

/-!
# The tokens of a text

`lexeme c cs` says what stands at the head of the text `c :: cs`: a token, or blanks or a comment,
and how many characters after `c` belong to it. `tokenize` lists the tokens of a whole text;
a `Lexer` hands them out one at a time and repeats the end token once the text is used up.
Positions count characters.
-/

namespace Scripting

/-- What stands at the head of a text. The character it starts with is not counted. -/
structure Lexeme where
  /-- The kind and the literal of a token, or `none` for a blank or a comment. -/
  token? : Option (TokenKind × String)
  /-- The number of characters after the first one. -/
  extra : Nat

namespace Lexeme

/-- The four characters that separate tokens. -/
def isSeparator (c : Char) : Bool :=
  c == ' ' || c == '\t' || c == '\r' || c == '\n'

/-- The characters of a word: the ASCII letters and the underscore. -/
def isWordChar (c : Char) : Bool :=
  ('a' ≤ c && c ≤ 'z') || ('A' ≤ c && c ≤ 'Z') || c == '_'

/-- The number of characters of a block comment after its opening: up to and with the first
closing, or all there are when none comes. -/
def commentLength : List Char → Nat
  | [] => 0
  | '*' :: '/' :: _ => 2
  | _ :: cs => commentLength cs + 1

theorem commentLength_le (cs : List Char) : commentLength cs ≤ cs.length := by
  fun_induction commentLength cs with
  | case1 => exact Nat.le_refl _
  | case2 => simp
  | case3 c cs _ ih => simpa using ih

/-- The kind of a one-character token. -/
def symbol : Char → TokenKind
  | '=' => .assign
  | '+' => .plus
  | '-' => .minus
  | '!' => .bang
  | '*' => .asterisk
  | '/' => .slash
  | '<' => .lt
  | '>' => .gt
  | ',' => .comma
  | ';' => .semicolon
  | ':' => .colon
  | '.' => .dot
  | '(' => .lparen
  | ')' => .rparen
  | '\x7b' => .lbrace
  | '\x7d' => .rbrace
  | '[' => .lbracket
  | ']' => .rbracket
  | _ => .illegal

/-- The kind of a two-character operator. -/
def pairSymbol? : Char → Char → Option TokenKind
  | '=', '=' => some .eq
  | '!', '=' => some .notEq
  | '&', '&' => some .and
  | '|', '|' => some .or
  | _, _ => none

/-- The operator or punctuation at the head of `c :: cs`, the longest that fits. A character
that starts no token is an illegal token of its own. -/
def operator (c : Char) (cs : List Char) : Lexeme :=
  match cs with
  | d :: _ =>
      match pairSymbol? c d with
      | some kind => ⟨some (kind, String.ofList [c, d]), 1⟩
      | none => ⟨some (symbol c, String.ofList [c]), 0⟩
  | [] => ⟨some (symbol c, String.ofList [c]), 0⟩

end Lexeme

open Lexeme in
/-- What stands at the head of `c :: cs`. A comment wins over the operator `/`; a string runs to
the next quote or to the end of the text. -/
def lexeme (c : Char) (cs : List Char) : Lexeme :=
  if isSeparator c then ⟨none, 0⟩
  else if c = '/' ∧ cs.head? = some '/' then ⟨none, (cs.takeWhile (· != '\n')).length⟩
  else if c = '/' ∧ cs.head? = some '*' then ⟨none, commentLength cs.tail + 1⟩
  else if c = '"' then
    let body := cs.takeWhile (· != '"')
    ⟨some (.string, String.ofList body), min (body.length + 1) cs.length⟩
  else if isWordChar c then
    let more := cs.takeWhile isWordChar
    let word := String.ofList (c :: more)
    ⟨some (.ofWord word, word), more.length⟩
  else if isDigit c then
    let more := cs.takeWhile isDigit
    ⟨some (.int, String.ofList (c :: more)), more.length⟩
  else operator c cs

theorem Lexeme.operator_extra_le (c : Char) (cs : List Char) :
    (operator c cs).extra ≤ cs.length := by
  unfold operator
  split
  · split <;> simp
  · simp

/-- What stands at the head of a text lies within the text. -/
theorem lexeme_extra_le (c : Char) (cs : List Char) : (lexeme c cs).extra ≤ cs.length := by
  have htake (p : Char → Bool) : (cs.takeWhile p).length ≤ cs.length :=
    (List.takeWhile_prefix p).length_le
  unfold lexeme
  split
  · exact Nat.zero_le _
  split
  · exact htake _
  split
  · next h =>
      have htail := Lexeme.commentLength_le cs.tail
      cases cs with
      | nil => simp at h
      | cons d cs => simpa using htail
  split
  · exact Nat.min_le_right _ _
  split
  · exact htake _
  split
  · exact htake _
  · exact Lexeme.operator_extra_le c cs

/-- The tokens of a text whose first character stands at `position`, the end token included. -/
def tokensFrom (position : Nat) : List Char → List Token
  | [] => [⟨.eof, "", position⟩]
  | c :: cs =>
      let l := lexeme c cs
      let rest := tokensFrom (position + 1 + l.extra) (cs.drop l.extra)
      match l.token? with
      | some (kind, literal) => ⟨kind, literal, position⟩ :: rest
      | none => rest
termination_by cs => cs.length
decreasing_by simp only [List.length_drop, List.length_cons]; omega

theorem tokensFrom_nil (position : Nat) : tokensFrom position [] = [⟨.eof, "", position⟩] := by
  rw [tokensFrom]

theorem tokensFrom_cons (position : Nat) (c : Char) (cs : List Char) :
    tokensFrom position (c :: cs) =
      (match (lexeme c cs).token? with
        | some (kind, literal) => [⟨kind, literal, position⟩]
        | none => []) ++
      tokensFrom (position + 1 + (lexeme c cs).extra) (cs.drop (lexeme c cs).extra) := by
  rw [tokensFrom]
  cases (lexeme c cs).token? <;> rfl

/-- The tokens of a text, with the end token last. -/
def tokenize (text : String) : List Token :=
  tokensFrom 0 text.toList

/-- A place in a text from which tokens are pulled one at a time. -/
structure Lexer where
  rest : List Char
  position : Nat

namespace Lexer

/-- The lexer at the start of a text. -/
def ofText (text : String) : Lexer :=
  ⟨text.toList, 0⟩

/-- The next token and the lexer behind it. At the end of the text it stays where it is. -/
def next (lexer : Lexer) : Token × Lexer :=
  match lexer with
  | ⟨[], position⟩ => (⟨.eof, "", position⟩, ⟨[], position⟩)
  | ⟨c :: cs, position⟩ =>
      let l := lexeme c cs
      let behind : Lexer := ⟨cs.drop l.extra, position + 1 + l.extra⟩
      match l.token? with
      | some (kind, literal) => (⟨kind, literal, position⟩, behind)
      | none => behind.next
termination_by lexer.rest.length
decreasing_by simp only [List.length_drop, List.length_cons]; omega

theorem next_nil (position : Nat) :
    next ⟨[], position⟩ = (⟨.eof, "", position⟩, ⟨[], position⟩) := by
  rw [next]

theorem next_cons (c : Char) (cs : List Char) (position : Nat) :
    next ⟨c :: cs, position⟩ =
      match (lexeme c cs).token? with
      | some (kind, literal) =>
          (⟨kind, literal, position⟩,
            ⟨cs.drop (lexeme c cs).extra, position + 1 + (lexeme c cs).extra⟩)
      | none => next ⟨cs.drop (lexeme c cs).extra, position + 1 + (lexeme c cs).extra⟩ := by
  rw [next]

/-- Calls several lexers in the given order: each call names a lexer by its number. -/
def calls (lexers : Array Lexer) : List Nat → List Token
  | [] => []
  | i :: rest =>
      match lexers[i]? with
      | none => calls lexers rest
      | some lexer =>
          let (token, behind) := lexer.next
          token :: calls (lexers.set! i behind) rest

end Lexer

end Scripting
