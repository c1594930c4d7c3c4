/-!
# Tokens

The kinds of token a program text is made of, their names, and the way each is spelled in a
diagnostic. A token carries its kind, its literal text and the position of its first character,
counted in characters from the start of the text.
-/

namespace Scripting

/-- The kinds of token. `other` holds a kind that the language does not have; no text yields
one, but a token list made by hand may. -/
inductive TokenKind where
  | illegal | ident | int | string
  | assign | eq | notEq | plus | minus | bang | asterisk | slash | lt | gt | and | or
  | comma | semicolon | colon | dot
  | lparen | rparen | lbrace | rbrace | lbracket | rbracket
  | funcWord | letWord | trueWord | falseWord | ifWord | elseWord | returnWord | printWord
  | nullWord | classWord | newWord | thisWord | extendsWord | superWord
  | eof
  | other (name : String)
  deriving DecidableEq, Repr, Inhabited

/-- A token of a text. -/
structure Token where
  kind : TokenKind
  /-- The text of the token; of a string, what stands between the quotes. -/
  literal : String
  /-- The number of characters before the token. -/
  position : Int
  deriving DecidableEq, Repr, Inhabited

namespace TokenKind

/-- The name of a kind. -/
def name : TokenKind → String
  | illegal => "ILLEGAL" | ident => "IDENT" | int => "INT" | string => "STRING"
  | assign => "ASSIGN" | eq => "EQ" | notEq => "NOT_EQ" | plus => "PLUS" | minus => "MINUS"
  | bang => "BANG" | asterisk => "ASTERISK" | slash => "SLASH" | lt => "LT" | gt => "GT"
  | and => "AND" | or => "OR"
  | comma => "COMMA" | semicolon => "SEMICOLON" | colon => "COLON" | dot => "DOT"
  | lparen => "LPAREN" | rparen => "RPAREN" | lbrace => "LBRACE" | rbrace => "RBRACE"
  | lbracket => "LBRACKET" | rbracket => "RBRACKET"
  | funcWord => "FUNCTION" | letWord => "LET" | trueWord => "TRUE" | falseWord => "FALSE"
  | ifWord => "IF" | elseWord => "ELSE" | returnWord => "RETURN" | printWord => "PRINT"
  | nullWord => "NULL" | classWord => "CLASS" | newWord => "NEW" | thisWord => "THIS"
  | extendsWord => "EXTENDS" | superWord => "SUPER"
  | eof => "EOF"
  | other name => name

/-- The kind of a name; a name that no kind has gives an `other` kind. -/
def ofName : String → TokenKind
  | "ILLEGAL" => illegal | "IDENT" => ident | "INT" => int | "STRING" => string
  | "ASSIGN" => assign | "EQ" => eq | "NOT_EQ" => notEq | "PLUS" => plus | "MINUS" => minus
  | "BANG" => bang | "ASTERISK" => asterisk | "SLASH" => slash | "LT" => lt | "GT" => gt
  | "AND" => and | "OR" => or
  | "COMMA" => comma | "SEMICOLON" => semicolon | "COLON" => colon | "DOT" => dot
  | "LPAREN" => lparen | "RPAREN" => rparen | "LBRACE" => lbrace | "RBRACE" => rbrace
  | "LBRACKET" => lbracket | "RBRACKET" => rbracket
  | "FUNCTION" => funcWord | "LET" => letWord | "TRUE" => trueWord | "FALSE" => falseWord
  | "IF" => ifWord | "ELSE" => elseWord | "RETURN" => returnWord | "PRINT" => printWord
  | "NULL" => nullWord | "CLASS" => classWord | "NEW" => newWord | "THIS" => thisWord
  | "EXTENDS" => extendsWord | "SUPER" => superWord
  | "EOF" => eof
  | name => other name

/-- How a diagnostic spells a kind: operators and punctuation by their symbol, the rest by
name. -/
def display : TokenKind → String
  | assign => "=" | eq => "==" | notEq => "!=" | plus => "+" | minus => "-" | bang => "!"
  | asterisk => "*" | slash => "/" | lt => "<" | gt => ">" | and => "&&" | or => "||"
  | comma => "," | semicolon => ";" | colon => ":" | dot => "."
  | lparen => "(" | rparen => ")" | lbrace => "\x7b" | rbrace => "\x7d"
  | lbracket => "[" | rbracket => "]"
  | kind => kind.name

/-- The kind of a word: a reserved word has its own, any other is an identifier. -/
def ofWord : String → TokenKind
  | "func" => funcWord | "let" => letWord | "true" => trueWord | "false" => falseWord
  | "if" => ifWord | "else" => elseWord | "return" => returnWord | "print" => printWord
  | "null" => nullWord | "class" => classWord | "new" => newWord | "this" => thisWord
  | "extends" => extendsWord | "super" => superWord
  | _ => ident

theorem ofName_name (kind : TokenKind) (h : ∀ n, kind ≠ other n) : ofName kind.name = kind := by
  cases kind with
  | other n => exact absurd rfl (h n)
  | _ => rfl

/-- What a token of a kind adds to the number of open brackets. -/
def depthChange : TokenKind → Int
  | lparen | lbrace | lbracket => 1
  | rparen | rbrace | rbracket => -1
  | _ => 0

end TokenKind

/-- How many more brackets a token list opens than it closes. -/
def bracketDepth (tokens : List Token) : Int :=
  tokens.foldr (fun t depth => t.kind.depthChange + depth) 0

@[simp] theorem bracketDepth_nil : bracketDepth [] = 0 := rfl

theorem bracketDepth_cons (t : Token) (ts : List Token) :
    bracketDepth (t :: ts) = t.kind.depthChange + bracketDepth ts := rfl

theorem bracketDepth_append (ts us : List Token) :
    bracketDepth (ts ++ us) = bracketDepth ts + bracketDepth us := by
  induction ts with
  | nil => simp
  | cons t ts ih => rw [List.cons_append, bracketDepth_cons, bracketDepth_cons, ih, Int.add_assoc]

end Scripting
