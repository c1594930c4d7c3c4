import Scripting.Reading.Literal
import Scripting.Token.Lexer

/-!
# Rows of digits

The integer tokens of a text are rows of ASCII digits, without a sign. Such a row stands for the
number that its digits spell.
-/

namespace Scripting

/-- A literal with digits only. -/
def DigitRow (literal : String) : Prop :=
  ∀ c ∈ literal.toList, isDigit c = true

instance (literal : String) : Decidable (DigitRow literal) :=
  decidable_of_iff (literal.toList.all isDigit = true) List.all_eq_true

/-- The integer tokens have digits only. -/
def DigitRows (ts : List Token) : Prop :=
  ∀ t ∈ ts, t.kind = .int → DigitRow t.literal

theorem DigitRows.tail {t : Token} {ts : List Token} (h : DigitRows (t :: ts)) : DigitRows ts :=
  fun u hu => h u (List.mem_cons_of_mem t hu)

theorem literalDigits_of_digitRow {literal : String} (h : DigitRow literal) :
    literalDigits literal = literal.toList := by
  rw [literalDigits]
  split
  · next digits hl =>
      have hminus := h '-' (hl ▸ List.mem_cons_self)
      cases hminus
  · rfl

theorem literalValue_of_digitRow {literal : String} (h : DigitRow literal) :
    literalValue literal = numberOfDigits literal.toList := by
  rw [literalValue]
  split
  · next digits hl =>
      have hminus := h '-' (hl ▸ List.mem_cons_self)
      cases hminus
  · rfl

/-! ### The tokens of a text -/

theorem ofWord_ne_int (word : String) : TokenKind.ofWord word ≠ .int := by
  unfold TokenKind.ofWord
  split <;> exact TokenKind.noConfusion

/-- The kinds of the operators and of punctuation, and that of a character that starts no token. -/
def TokenKind.isSymbol : TokenKind → Bool
  | .assign | .eq | .notEq | .plus | .minus | .bang | .asterisk | .slash | .lt | .gt | .and | .or
  | .comma | .semicolon | .colon | .dot | .lparen | .rparen | .lbrace | .rbrace | .lbracket
  | .rbracket | .illegal => true
  | _ => false

theorem Lexeme.isSymbol_operator {c : Char} {cs : List Char} {kind : TokenKind} {literal : String}
    (h : (Lexeme.operator c cs).token? = some (kind, literal)) : kind.isSymbol = true := by
  have hsymbol : (symbol c).isSymbol = true := by
    unfold symbol
    split <;> rfl
  unfold Lexeme.operator at h
  split at h
  · next d _ =>
      split at h
      · next pair hpair =>
          cases h
          unfold pairSymbol? at hpair
          split at hpair <;> cases hpair <;> rfl
      · cases h
        exact hsymbol
  · cases h
    exact hsymbol

theorem digitRow_of_lexeme {c : Char} {cs : List Char} {literal : String}
    (h : (lexeme c cs).token? = some (.int, literal)) : DigitRow literal := by
  unfold lexeme at h
  split at h
  · cases h
  split at h
  · cases h
  split at h
  · cases h
  split at h
  · cases h
  split at h
  · next word _ =>
      simp only [Option.some.injEq, Prod.mk.injEq] at h
      exact absurd h.1 (ofWord_ne_int _)
  split at h
  · next hdigit =>
      simp only [Option.some.injEq, Prod.mk.injEq] at h
      obtain ⟨-, rfl⟩ := h
      intro d hd
      rw [String.toList_ofList] at hd
      rcases List.mem_cons.mp hd with rfl | hd
      · exact hdigit
      · exact List.all_eq_true.mp List.all_takeWhile d hd
  · cases Lexeme.isSymbol_operator h

/-- What holds of the token of every lexeme and of the end token holds of all tokens of a text. -/
theorem forall_tokensFrom {p : Token → Prop}
    (hlexeme : ∀ c cs kind literal position, (lexeme c cs).token? = some (kind, literal) →
      p ⟨kind, literal, position⟩)
    (hend : ∀ position, p ⟨.eof, "", position⟩) (position : Nat) (cs : List Char) :
    ∀ t ∈ tokensFrom position cs, p t := by
  induction hn : cs.length using Nat.strongRecOn generalizing position cs with
  | _ n ih =>
      cases cs with
      | nil =>
          rw [tokensFrom_nil]
          intro t ht
          rw [List.mem_singleton.mp ht]
          exact hend position
      | cons c cs =>
          rw [tokensFrom_cons]
          intro t ht
          rcases List.mem_append.mp ht with ht | ht
          · split at ht
            · next kind literal hl =>
                rw [List.mem_singleton.mp ht]
                exact hlexeme c cs kind literal position hl
            · cases ht
          · refine ih _ ?_ _ _ rfl t ht
            rw [List.length_drop, ← hn, List.length_cons]
            omega

theorem digitRows_tokensFrom (position : Nat) (cs : List Char) :
    DigitRows (tokensFrom position cs) := by
  refine forall_tokensFrom ?_ ?_ position cs
  · intro c cs kind literal position hl hk
    subst hk
    exact digitRow_of_lexeme hl
  · intro position hk
    cases hk

/-- The integer tokens of a text have digits only. -/
theorem digitRows_tokenize (text : String) : DigitRows (tokenize text) :=
  digitRows_tokensFrom 0 text.toList

end Scripting
