import Scripting.Proofs.Token.Bare
import Scripting.Proofs.Token.Join

/-!
# Blanks and comments

What stands between the tokens of a text: blanks, line comments with the line break that ends them,
and block comments with their closing. None of it is a token, so in front of other text it moves the
tokens and does nothing else. A text may also end in the middle of its last comment.
-/

namespace Scripting

open Lexeme

/-- Blanks and comments. Every line comment is ended by a line break and every block comment by its
first closing. -/
inductive IsTrivia : List Char → Prop where
  | nil : IsTrivia []
  | blank {c : Char} {cs : List Char} (hc : isSeparator c = true) (hcs : IsTrivia cs) :
      IsTrivia (c :: cs)
  | line {body cs : List Char} (hbody : '\n' ∉ body) (hcs : IsTrivia cs) :
      IsTrivia ('/' :: '/' :: (body ++ '\n' :: cs))
  | block {body cs : List Char} (hbody : closesComment body = false) (hcs : IsTrivia cs) :
      IsTrivia ('/' :: '*' :: (body ++ '*' :: '/' :: cs))

/-- Blanks and comments of which the last may lack its end. -/
inductive IsLastTrivia : List Char → Prop where
  | ended {cs : List Char} (hcs : IsTrivia cs) : IsLastTrivia cs
  | line {cs body : List Char} (hcs : IsTrivia cs) (hbody : '\n' ∉ body) :
      IsLastTrivia (cs ++ '/' :: '/' :: body)
  | block {cs body : List Char} (hcs : IsTrivia cs) (hbody : closesComment body = false) :
      IsLastTrivia (cs ++ '/' :: '*' :: body)

/-! ### Lexemes that are no tokens -/

theorem lexeme_of_isSeparator {c : Char} (h : isSeparator c = true) (cs : List Char) :
    lexeme c cs = ⟨none, 0⟩ := by
  rw [lexeme, if_pos h]

theorem lexeme_line (cs : List Char) :
    lexeme '/' ('/' :: cs) = ⟨none, (cs.takeWhile (· != '\n')).length + 1⟩ := rfl

theorem lexeme_block (cs : List Char) :
    lexeme '/' ('*' :: cs) = ⟨none, commentLength cs + 1⟩ := rfl

/-- What is no token is left out. -/
theorem tokensFrom_of_none {c : Char} {cs : List Char} {extra : Nat}
    (h : lexeme c cs = ⟨none, extra⟩) (position : Nat) :
    tokensFrom position (c :: cs) = tokensFrom (position + 1 + extra) (cs.drop extra) := by
  rw [tokensFrom_cons, h, List.nil_append]

/-- A comment reaches up to its first closing. -/
theorem commentLength_append_closing {body : List Char} (h : closesComment body = false)
    (cs : List Char) : commentLength (body ++ '*' :: '/' :: cs) = body.length + 2 := by
  induction body using closesComment.induct with
  | case1 => rfl
  | case2 body => cases h
  | case3 c body hne ih =>
      rw [closesComment.eq_3 _ _ hne] at h
      have hne' : ∀ rest, c = '*' → body ++ '*' :: '/' :: cs = '/' :: rest → False := by
        intro rest hc hrest
        cases body with
        | nil => cases hrest
        | cons d body =>
            obtain ⟨rfl, -⟩ := List.cons.inj hrest
            exact hne body hc rfl
      rw [List.cons_append, commentLength.eq_3 _ _ hne', ih h, List.length_cons]

/-- A comment that is not closed reaches to the end. -/
theorem commentLength_of_not_closes {body : List Char} (h : closesComment body = false) :
    commentLength body = body.length := by
  induction body using closesComment.induct with
  | case1 => rfl
  | case2 body => cases h
  | case3 c body hne ih =>
      rw [closesComment.eq_3 _ _ hne] at h
      rw [commentLength.eq_3 _ _ hne, ih h, List.length_cons]

/-- A text up to the first closing of a comment, if there is one. -/
theorem exists_of_closesComment {cs : List Char} (h : closesComment cs = true) :
    ∃ body rest, closesComment body = false ∧ cs = body ++ '*' :: '/' :: rest := by
  induction cs using closesComment.induct with
  | case1 => cases h
  | case2 cs => exact ⟨[], cs, rfl, rfl⟩
  | case3 c cs hne ih =>
      rw [closesComment.eq_3 _ _ hne] at h
      obtain ⟨body, rest, hbody, rfl⟩ := ih h
      refine ⟨c :: body, rest, ?_, rfl⟩
      rw [closesComment.eq_3, hbody]
      rintro more hc rfl
      exact hne _ hc rfl

/-! ### Trivia in front of a text -/

/-- A line reaches up to its line break or to the end of the text. -/
theorem takeWhile_line {body rest : List Char} (h : '\n' ∉ body)
    (hrest : ∀ c ∈ rest.head?, c = '\n') : (body ++ rest).takeWhile (· != '\n') = body := by
  refine takeWhile_append_of_stops (fun c hc => ?_) fun c hc => ?_
  · exact bne_iff_ne.mpr fun heq => h (heq ▸ hc)
  · rw [hrest c hc]
    rfl

/-- Trivia moves the tokens behind it and does nothing else. -/
theorem tokensFrom_trivia {gap : List Char} (h : IsTrivia gap) (position : Nat)
    (rest : List Char) :
    tokensFrom position (gap ++ rest) = tokensFrom (position + gap.length) rest := by
  induction h generalizing position with
  | nil => rfl
  | blank hc _ ih =>
      rw [List.cons_append, tokensFrom_of_none (lexeme_of_isSeparator hc _), List.drop_zero, ih,
        List.length_cons]
      congr 1
      omega
  | @line body cs hbody _ ih =>
      have hline : lexeme '/' ('/' :: (body ++ '\n' :: (cs ++ rest))) =
          ⟨none, body.length + 1⟩ := by
        rw [lexeme_line, takeWhile_line hbody fun _ hc => (Option.mem_some_iff.mp hc).symm]
      have hbreak : lexeme '\n' (cs ++ rest) = ⟨none, 0⟩ := lexeme_of_isSeparator rfl _
      simp only [List.cons_append, List.append_assoc]
      rw [tokensFrom_of_none hline, List.drop_succ_cons, List.drop_left,
        tokensFrom_of_none hbreak, List.drop_zero, ih]
      simp only [List.length_cons, List.length_append]
      congr 1
      omega
  | @block body cs hbody _ ih =>
      have hblock : lexeme '/' ('*' :: (body ++ '*' :: '/' :: (cs ++ rest))) =
          ⟨none, (body ++ ['*', '/']).length + 1⟩ := by
        rw [lexeme_block, commentLength_append_closing hbody, List.length_append]
        rfl
      have hsplit : body ++ '*' :: '/' :: (cs ++ rest) = (body ++ ['*', '/']) ++ (cs ++ rest) := by
        rw [List.append_assoc]
        rfl
      simp only [List.cons_append, List.append_assoc]
      rw [tokensFrom_of_none hblock, List.drop_succ_cons, hsplit, List.drop_left, ih]
      simp only [List.length_cons, List.length_append, List.length_nil]
      congr 1
      omega

/-- A text of trivia has only its end token, be its last comment ended or not. -/
theorem tokensFrom_lastTrivia {cs : List Char} (h : IsLastTrivia cs) (position : Nat) :
    tokensFrom position cs = [⟨.eof, "", (position + cs.length : Nat)⟩] := by
  cases h with
  | ended h =>
      have hskip := tokensFrom_trivia h position []
      rwa [List.append_nil, tokensFrom_nil] at hskip
  | @line gap body h hbody =>
      have htake : (body ++ []).takeWhile (· != '\n') = body :=
        takeWhile_line hbody fun _ hc => nomatch hc
      rw [List.append_nil] at htake
      rw [tokensFrom_trivia h, tokensFrom_of_none (lexeme_line body), htake, List.drop_succ_cons,
        List.drop_length, tokensFrom_nil]
      simp only [List.length_append, List.length_cons]
      congr 3
      omega
  | @block gap body h hbody =>
      rw [tokensFrom_trivia h, tokensFrom_of_none (lexeme_block body),
        commentLength_of_not_closes hbody, List.drop_succ_cons, List.drop_length, tokensFrom_nil]
      simp only [List.length_append, List.length_cons]
      congr 3
      omega

end Scripting
