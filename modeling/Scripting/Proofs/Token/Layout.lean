import Scripting.Proofs.Token.Tiling

/-!
# Layout

Tokens can be written one behind the other with any layout in between, if each is followed by a
blank: the tokens of the text are the ones that were written. Layout does not matter to a reading
either, since positions do not.
-/

namespace Scripting

open Lexeme

/-- The tokens that can be written: words, reserved or not, rows of digits, strings without a quote
in them, operators and punctuation, and single characters that start no token. -/
inductive IsLexable : TokenKind → String → Prop where
  | word {word : String} (h : IsWord word) : IsLexable (.ofWord word) word
  | digits {row : String} (hne : row ≠ "") (h : DigitRow row) : IsLexable .int row
  | string {body : String} (h : '"' ∉ body.toList) : IsLexable .string body
  | operator {kind : TokenKind} (h : kind.isOperator = true) : IsLexable kind kind.display
  | stray {c : Char} (h : startsLexeme c = false) : IsLexable .illegal (String.ofList [c])

/-- A blank, and behind it blanks and comments, each comment with its end. -/
def IsSeparation (gap : List Char) : Prop :=
  ∃ c cs, gap = c :: cs ∧ isSeparator c = true ∧ IsTrivia cs

/-- A token that can be written and the layout behind it. -/
structure LaidToken where
  kind : TokenKind
  literal : String
  gap : List Char
  lexable : IsLexable kind literal
  separation : IsSeparation gap

/-- How a token is written. -/
def written (kind : TokenKind) (literal : String) : List Char :=
  if kind = .string then '"' :: (literal.toList ++ ['"']) else literal.toList

namespace LaidToken

def token (laid : LaidToken) : Token :=
  ⟨laid.kind, laid.literal, 0⟩

def text (laid : LaidToken) : List Char :=
  written laid.kind laid.literal ++ laid.gap

end LaidToken

theorem IsSeparation.trivia {gap : List Char} (h : IsSeparation gap) : IsTrivia gap := by
  obtain ⟨c, cs, rfl, hc, hcs⟩ := h
  exact .blank hc hcs

/-- A blank goes on with no lexeme. -/
theorem stops_of_isSeparator {c : Char} (h : isSeparator c = true) :
    isWordChar c = false ∧ isDigit c = false ∧ (∀ kind, TokenKind.goesOnWith kind c = false) ∧
      c ≠ '&' ∧ c ≠ '|' := by
  simp only [isSeparator, Bool.or_eq_true, beq_iff_eq] at h
  rcases h with ((rfl | rfl) | rfl) | rfl <;>
    exact ⟨rfl, rfl, fun kind => by cases kind <;> rfl, by decide, by decide⟩

/-- What is written in front of a blank is the whole lexeme of its token. -/
theorem IsLexable.spells {kind : TokenKind} {literal : String} (h : IsLexable kind literal)
    {gap : List Char} (hgap : IsSeparation gap) (rest : List Char) :
    Spells (gap ++ rest) kind literal (written kind literal) := by
  obtain ⟨c, cs, rfl, hc, -⟩ := hgap
  obtain ⟨hword, hdigit, hgoes, hand, hor⟩ := stops_of_isSeparator hc
  have hhead {p : Char → Prop} (hp : p c) : ∀ d ∈ (c :: cs ++ rest).head?, p d :=
    fun d hd => Option.mem_some_iff.mp hd ▸ hp
  cases h with
  | word h =>
      rw [written, if_neg (ofWord_ne_string _)]
      exact .word h (hhead hword)
  | digits hne h => exact .digits hne h (hhead hdigit)
  | string h => exact .string h
  | operator h =>
      have hkind : kind ≠ .string := by
        rintro rfl
        cases h
      rw [written, if_neg hkind]
      exact .operator h (hhead (hgoes kind))
  | @stray d h =>
      rw [written, if_neg TokenKind.noConfusion, String.toList_ofList]
      refine .stray h ?_
      rintro (rfl | rfl) hd
      · exact hand (Option.some.inj hd)
      · exact hor (Option.some.inj hd)

/-! ### The tokens of a layout -/

theorem bareTokens_trivia {gap : List Char} (h : IsTrivia gap) (rest : List Char) :
    bareTokens (gap ++ rest) = bareTokens rest := by
  rw [bareTokens, tokensFrom_trivia h, map_bare_tokensFrom _ 0]
  rfl

theorem bareTokens_laid (laid : LaidToken) (rest : List Char) :
    bareTokens (laid.text ++ rest) = laid.token :: bareTokens rest := by
  obtain ⟨c, more, hwritten, hl⟩ := (laid.lexable.spells laid.separation rest).lexeme_eq
  rw [LaidToken.text, List.append_assoc, hwritten, List.cons_append, bareTokens_of_token hl,
    List.drop_left, bareTokens_trivia laid.separation.trivia]
  rfl

theorem bareTokens_layout (laid : List LaidToken) :
    bareTokens (laid.flatMap LaidToken.text) = laid.map LaidToken.token ++ [⟨.eof, "", 0⟩] := by
  induction laid with
  | nil => exact bareTokens_nil
  | cons first laid ih =>
      rw [List.flatMap_cons, bareTokens_laid, ih, List.map_cons, List.cons_append]

/-- Tokens are read back from every layout they are written in, and texts with the same tokens are
read as the same program with the same errors. -/
theorem layout_undone :
    (∀ (gap : List Char) (laid : List LaidToken), IsTrivia gap →
      (tokenize (String.ofList (gap ++ laid.flatMap LaidToken.text))).map Token.bare =
        laid.map LaidToken.token ++ [⟨.eof, "", 0⟩]) ∧
      ∀ text other, (tokenize text).map Token.bare = (tokenize other).map Token.bare →
        Reading.ofText text = Reading.ofText other := by
  refine ⟨fun gap laid hgap => ?_, fun text other h => ?_⟩
  · rw [tokenize, String.toList_ofList]
    exact (bareTokens_trivia hgap _).trans (bareTokens_layout laid)
  · rw [Reading.ofText, Reading.ofText, ← Reading.ofTokens_bare, h, Reading.ofTokens_bare]

/-- Quotes in a comment and comments in a string are no layout. -/
theorem layout_undone_comments :
    IsTrivia [' '] ∧
      (tokenize " let\t& /*\"*/\"/*\" //*\n").map Token.bare =
        [⟨.letWord, "let", 0⟩, ⟨.illegal, "&", 0⟩, ⟨.string, "/*", 0⟩, ⟨.eof, "", 0⟩] ∧
      Reading.ofText " let\t& /*\"*/\"/*\" //*\n" = Reading.ofText "let& \"/*" := by
  have hgap : IsTrivia [' '] := .blank rfl .nil
  have hblock : IsTrivia "/*\"*/".toList := @IsTrivia.block ['"'] [] rfl .nil
  have hline : IsTrivia "//*\n".toList := @IsTrivia.line ['*'] [] (by decide) .nil
  let laid : List LaidToken :=
    [⟨.letWord, "let", ['\t'], @IsLexable.word "let" (by decide), '\t', [], rfl, rfl, .nil⟩,
      ⟨.illegal, "&", " /*\"*/".toList, @IsLexable.stray '&' rfl, ' ', _, rfl, rfl, hblock⟩,
      ⟨.string, "/*", " //*\n".toList, .string (by decide), ' ', _, rfl, rfl, hline⟩]
  have htext : " let\t& /*\"*/\"/*\" //*\n" =
      String.ofList ([' '] ++ laid.flatMap LaidToken.text) := by
    refine String.ofList_toList.symm.trans (congrArg String.ofList ?_)
    simp only [laid, LaidToken.text, List.flatMap_cons, List.flatMap_nil]
    rfl
  have hbare := layout_undone.1 [' '] laid hgap
  rw [← htext] at hbare
  exact ⟨hgap, hbare, layout_undone.2 _ _ (hbare.trans (by cbv))⟩

end Scripting
