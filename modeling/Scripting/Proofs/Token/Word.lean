import Scripting.Proofs.Token.DigitRow

/-!
# Words

The names of a text are words that are not reserved, and the word `print`, which is read like the
name of a function. No other token of a text has the kind of a name.
-/

namespace Scripting

/-- A word that can stand as a name. -/
def IsNameWord (word : String) : Prop :=
  TokenKind.ofWord word = .ident ∨ TokenKind.ofWord word = .printWord

instance (word : String) : Decidable (IsNameWord word) :=
  inferInstanceAs (Decidable (_ ∨ _))

/-- A token that stands for a name. -/
def Token.IsName (t : Token) : Prop :=
  t.kind = .ident ∨ t.kind = .printWord

/-- The tokens that stand for names are words that can. -/
def NameWords (ts : List Token) : Prop :=
  ∀ t ∈ ts, t.IsName → IsNameWord t.literal

theorem ofWord_of_lexeme {c : Char} {cs : List Char} {kind : TokenKind} {literal : String}
    {position : Int} (h : (lexeme c cs).token? = some (kind, literal))
    (hname : Token.IsName ⟨kind, literal, position⟩) : TokenKind.ofWord literal = kind := by
  unfold lexeme at h
  split at h
  · cases h
  split at h
  · cases h
  split at h
  · cases h
  split at h
  · cases h
    rcases hname with hk | hk <;> cases hk
  split at h
  · cases h
    rfl
  split at h
  · cases h
    rcases hname with hk | hk <;> cases hk
  · have hsymbol := Lexeme.isSymbol_operator h
    rcases hname with rfl | rfl <;> cases hsymbol

/-- A token that stands for a name has the kind of its word. -/
theorem ofWord_of_mem_tokenize {text : String} {t : Token} (ht : t ∈ tokenize text)
    (hname : t.IsName) : TokenKind.ofWord t.literal = t.kind := by
  have hall : ∀ t ∈ tokenize text, t.IsName → TokenKind.ofWord t.literal = t.kind := by
    refine forall_tokensFrom ?_ ?_ 0 text.toList
    · exact fun c cs kind literal position hl hname => ofWord_of_lexeme hl hname
    · rintro position (hk | hk) <;> cases hk
  exact hall t ht hname

/-- The names of a text are words that can stand as names. -/
theorem nameWords_tokenize (text : String) : NameWords (tokenize text) := by
  intro t ht hname
  rw [IsNameWord, ofWord_of_mem_tokenize ht hname]
  exact hname

end Scripting
