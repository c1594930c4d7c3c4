import Scripting.Proofs.Token.Position
import Scripting.Proofs.Token.Trivia

/-!
# The tokens of a text at its line breaks

A line break splits the tokens of a text like the text itself, unless it stands inside a string or a
block comment. If it does, then everything behind it up to the closing belongs to that one lexeme,
and the tokens are not those of the two sides.
-/

namespace Scripting

theorem tokensFrom_newline (position : Nat) (cs : List Char) :
    tokensFrom position ('\n' :: cs) = tokensFrom (position + 1) cs :=
  tokensFrom_of_none (lexeme_of_isSeparator rfl cs) position

/-- The tokens of a text end with the end token, which stands behind the last character. -/
theorem tokenize_eq_dropLast_append (text : String) :
    tokenize text = (tokenize text).dropLast ++ [⟨.eof, "", text.length⟩] ∧
      ∀ t ∈ (tokenize text).dropLast, t.kind ≠ .eof := by
  obtain ⟨ts, hts, hend, -⟩ := exists_tokensFrom_append 0 text.toList
  rw [Nat.zero_add, String.length_toList] at hend
  rw [tokenize, hend, List.dropLast_concat]
  exact ⟨rfl, hts⟩

/-- A line break that stands neither in a string nor in a block comment splits the tokens. -/
theorem tokenize_append_newline {a : String} (h : endsOpen a.toList = false) (b : String) :
    tokenize (a ++ "\n" ++ b) =
      (tokenize a).dropLast ++ (tokenize b).map (Token.shift (a.length + 1)) := by
  obtain ⟨ts, -, hend, hmore⟩ := exists_tokensFrom_append 0 a.toList
  have hsplit : (a ++ "\n" ++ b).toList = a.toList ++ '\n' :: b.toList := by
    rw [String.toList_append, String.toList_append, List.append_assoc]
    rfl
  have hbehind : tokensFrom (0 + a.toList.length + 1) b.toList =
      (tokenize b).map (Token.shift (a.length + 1)) := by
    rw [Nat.add_assoc, tokensFrom_add, String.length_toList]
    rfl
  have hfront : (tokenize a).dropLast = ts := by
    rw [tokenize, hend, List.dropLast_concat]
  rw [tokenize, hsplit, hmore h, tokensFrom_newline, hbehind, hfront]

/-! ### Line breaks in strings and block comments -/

theorem closesComment_append_newline {cs more : List Char} (hcs : closesComment cs = false)
    (hmore : closesComment more = false) : closesComment (cs ++ '\n' :: more) = false := by
  induction cs using closesComment.induct with
  | case1 => exact hmore
  | case2 cs => cases hcs
  | case3 c cs hne ih =>
      rw [closesComment.eq_3 _ _ hne] at hcs
      have hne' : ∀ rest, c = '*' → cs ++ '\n' :: more = '/' :: rest → False := by
        intro rest hc hrest
        cases cs with
        | nil => exact absurd (List.cons.inj hrest).1 (by decide)
        | cons d cs =>
            obtain ⟨rfl, -⟩ := List.cons.inj hrest
            exact hne cs hc rfl
      rw [List.cons_append, closesComment.eq_3 _ _ hne', ih hcs]

/-- What is not closed in a text is not closed either by more that has no closing. -/
theorem opensUnclosed_append {c : Char} {cs more : List Char} (h : opensUnclosed c cs = true)
    (hquote : '"' ∉ more) (hmore : closesComment more = false) :
    opensUnclosed c (cs ++ '\n' :: more) = true := by
  simp only [opensUnclosed, Bool.or_eq_true, Bool.and_eq_true, Bool.not_eq_true', beq_iff_eq,
    List.contains_eq_mem, decide_eq_false_iff_not] at h ⊢
  rcases h with ⟨hc, hcs⟩ | ⟨⟨hc, hstar⟩, hcs⟩
  · refine .inl ⟨hc, fun hmem => ?_⟩
    rcases List.mem_append.mp hmem with hmem | hmem
    · exact hcs hmem
    · exact hquote (List.mem_of_ne_of_mem (by decide) hmem)
  · cases cs with
    | nil => cases hstar
    | cons d cs => exact .inr ⟨⟨hc, hstar⟩, closesComment_append_newline hcs hmore⟩

/-- What is not closed takes up the text: a string is its last token, a comment is none. -/
theorem kinds_of_opensUnclosed {c : Char} {cs : List Char} (h : opensUnclosed c cs = true)
    (position : Nat) :
    (tokensFrom position (c :: cs)).map Token.kind =
      if c = '"' then [.string, .eof] else [.eof] := by
  simp only [opensUnclosed, Bool.or_eq_true, Bool.and_eq_true, Bool.not_eq_true', beq_iff_eq,
    List.contains_eq_mem, decide_eq_false_iff_not] at h
  rcases h with ⟨rfl, hcs⟩ | ⟨⟨rfl, hstar⟩, hcs⟩
  · have hall : (cs ++ []).takeWhile (· != '"') = cs :=
      takeWhile_append_of_stops (fun c hc => bne_iff_ne.mpr fun heq => hcs (heq ▸ hc))
        (by rintro _ ⟨⟩)
    rw [List.append_nil] at hall
    have hlexeme : lexeme '"' cs = ⟨some (.string, String.ofList cs), cs.length⟩ := by
      change Lexeme.mk (some (.string, String.ofList (cs.takeWhile (· != '"'))))
        (min ((cs.takeWhile (· != '"')).length + 1) cs.length) = _
      rw [hall, Nat.min_eq_right (Nat.le_succ _)]
    rw [tokensFrom_cons, hlexeme, List.drop_length, tokensFrom_nil]
    rfl
  · cases cs with
    | nil => cases hstar
    | cons d cs =>
        obtain rfl := Option.some.inj hstar
        have htrivia : IsLastTrivia ('/' :: '*' :: cs) := .block .nil hcs
        rw [tokensFrom_lastTrivia htrivia]
        rfl

/-- Behind a text that ends inside a string or a block comment a line break and more text without a
closing add no token. -/
theorem kinds_append_of_endsOpen {cs more : List Char} (h : endsOpen cs = true)
    (hquote : '"' ∉ more) (hmore : closesComment more = false) (position : Nat) :
    (tokensFrom position (cs ++ '\n' :: more)).map Token.kind =
      (tokensFrom position cs).map Token.kind := by
  induction hn : cs.length using Nat.strongRecOn generalizing position cs with
  | ind n ih =>
      subst hn
      cases cs with
      | nil => exact absurd h (by rw [endsOpen]; exact Bool.false_ne_true)
      | cons c cs =>
          cases hhead : opensUnclosed c cs with
          | true =>
              rw [List.cons_append, kinds_of_opensUnclosed hhead,
                kinds_of_opensUnclosed (opensUnclosed_append hhead hquote hmore)]
          | false =>
              rw [endsOpen_cons, hhead, Bool.false_or] at h
              have hlt : (cs.drop (lexeme c cs).extra).length < (c :: cs).length := by
                rw [List.length_drop, List.length_cons]
                omega
              rw [List.cons_append, tokensFrom_cons, tokensFrom_cons, lexeme_append hhead,
                List.drop_append_of_le_length (lexeme_extra_le c cs), List.map_append,
                List.map_append, ih _ hlt h _ rfl]

/-- A line break splits the tokens, whatever is behind it, exactly if it stands neither in a string
nor in a block comment. -/
theorem endsOpen_eq_false_iff (a : String) :
    endsOpen a.toList = false ↔ ∀ b, tokenize (a ++ "\n" ++ b) =
      (tokenize a).dropLast ++ (tokenize b).map (Token.shift (a.length + 1)) := by
  refine ⟨tokenize_append_newline, fun hsplits => ?_⟩
  cases hopen : endsOpen a.toList with
  | false => rfl
  | true =>
      -- One more word is one more token, except where it is swallowed.
      have hword : (tokenize "x").length = 2 := by
        change (tokensFrom 0 ['x']).length = 2
        rw [tokensFrom_cons, List.drop_nil, tokensFrom_nil]
        rfl
      have hsplit : (a ++ "\n" ++ "x").toList = a.toList ++ '\n' :: ['x'] := by
        rw [String.toList_append, String.toList_append, List.append_assoc]
        rfl
      have hswallowed : (tokenize (a ++ "\n" ++ "x")).length = (tokenize a).length := by
        have hkinds := kinds_append_of_endsOpen hopen (by decide : '"' ∉ ['x']) rfl 0
        have hlength := congrArg List.length hkinds
        rwa [← hsplit, List.length_map, List.length_map] at hlength
      have hlast := congrArg List.length (tokenize_eq_dropLast_append a).1
      rw [List.length_append, List.length_singleton] at hlast
      rw [hsplits "x", List.length_append, List.length_map, hword, hlast] at hswallowed
      omega

end Scripting
