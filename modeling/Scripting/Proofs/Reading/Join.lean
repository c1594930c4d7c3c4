import Scripting.Proofs.Reading.Completeness
import Scripting.Proofs.Reading.Fuel
import Scripting.Proofs.Reading.Position
import Scripting.Proofs.Reading.Regrow
import Scripting.Proofs.Token.Join

/-!
# Programs one after another

The end of the tokens of a program can be given up for a semicolon and any other tokens, and what is
read then is the program followed by what is read of the others, with their faults. The semicolon
ends the last statement of the program, or stands by itself where that statement has one already or
takes none.
-/

namespace Scripting

open Step Precedence

namespace Phrase

section

variable {t : Token} {ts mid rest : List Token}

/-- At the end of the tokens, a semicolon that replaces it is taken if there is none yet. -/
theorem Spelled.join_semicolon (h : Phrase.semicolon.Spelled ts mid) (hmid : aheadKind mid = .eof)
    (ht : t.kind = .semicolon) (us : List Token) :
    ∃ ts' rest', Regrown mid (t :: us) ts ts' ∧ BeginsLike ts ts' ∧
      Phrase.semicolon.Spelled ts' rest' ∧ (rest' = us ∨ rest' = t :: us) := by
  cases h with
  | semicolon hk => exact ⟨_, _, .cons _ .rest, .inl rfl, .semicolon hk, .inr rfl⟩
  | noSemicolon h =>
      have hlike : BeginsLike ts (t :: us) :=
        .of_end hmid (by rw [ht]; rfl) (by rw [ht]; exact nofun) us
      exact ⟨_, _, .rest, hlike, .semicolon ht, .inl rfl⟩

theorem Spelled.join_statement {s : Option Stmt} (h : (Phrase.statement s).Spelled ts mid)
    (hmid : aheadKind mid = .eof) (ht : t.kind = .semicolon) (us : List Token) :
    ∃ ts' rest', Regrown mid (t :: us) ts ts' ∧ (Phrase.statement s).Spelled ts' rest' ∧
      (rest' = us ∨ rest' = t :: us) := by
  cases h with
  | emptyStatement hk => exact ⟨_, _, .cons _ .rest, .emptyStatement hk, .inr rfl⟩
  | expr h =>
      cases h with
      | expressionStatement h hend =>
          obtain ⟨ts', rest', hts, hlike, hend', hrest'⟩ := hend.join_semicolon hmid ht us
          obtain ⟨us', hus, h'⟩ := h.regrow ts' hlike
          exact ⟨us', rest', hus.trans hts, .expr (.expressionStatement h' hend'), hrest'⟩
  | letIn hk hu hv h hend =>
      obtain ⟨ts', rest', hts, hlike, hend', hrest'⟩ := hend.join_semicolon hmid ht us
      obtain ⟨us', hus, h'⟩ := h.regrow ts' hlike
      exact ⟨_, rest', (((hus.trans hts).cons _).cons _).cons _, .letIn hk hu hv h' hend', hrest'⟩
  | bareReturn hk hts hend =>
      cases hend with
      | semicolon hu => exact ⟨_, _, .cons _ (.cons _ .rest), .bareReturn hk hts (.semicolon hu),
          .inr rfl⟩
      | noSemicolon =>
          rw [hmid] at hts
          rcases hts with hts | hts <;> cases hts
  | ret hk h hend =>
      obtain ⟨ts', rest', hts, hlike, hend', hrest'⟩ := hend.join_semicolon hmid ht us
      obtain ⟨us', hus, h'⟩ := h.regrow ts' hlike
      exact ⟨_, rest', (hus.trans hts).cons _, .ret hk h' hend', hrest'⟩
  | namedFunction hk hu h hend =>
      obtain ⟨ts', rest', hts, -, hend', hrest'⟩ := hend.join_semicolon hmid ht us
      obtain ⟨us', hus, h'⟩ := h.regrow ts' trivial
      exact ⟨_, rest', ((hus.trans hts).cons _).cons _, .namedFunction hk hu h' hend', hrest'⟩
  | classDef hk h =>
      obtain ⟨us', hus, h'⟩ := h.regrow (t :: us) trivial
      exact ⟨_, _, hus.cons _, .classDef hk h', .inr rfl⟩

/-- Tokens that spell a program and have no end token are all taken. -/
theorem Spelled.rest_eq_nil {a : Block} (ha : (Phrase.program a).Spelled ts rest)
    (hts : ∀ t ∈ ts, t.kind ≠ .eof) : rest = [] := by
  obtain ⟨seg, hseg, -⟩ := ha.taken
  have hend : aheadKind rest = .eof := ha.endsBefore
  cases rest with
  | nil => rfl
  | cons t rest => exact absurd hend (hts t (hseg ▸ List.mem_append_right seg List.mem_cons_self))

/-- A statement that is spelled is read, and what is behind it is read as by itself. -/
theorem Spelled.ofTokens_statement {s : Option Stmt} (h : (Phrase.statement s).Spelled ts mid) :
    Reading.ofTokens ts =
      ⟨s.toList ++ (Reading.ofTokens mid).program, (Reading.ofTokens mid).errors⟩ := by
  have hlt := h.length_lt_of_statement
  obtain ⟨-, hend⟩ := h.begins
  have hfuel : 8 * ts.length + 5 < 8 * ts.length + 6 + 1 := by omega
  have hfirst : (Grammar.statement (8 * ts.length + 6)).Yields ts s mid := h.read _ (by omega)
  rw [Reading.ofTokens_eq_program hfuel,
    Reading.ofTokens_eq_program (show 8 * mid.length + 5 < 8 * ts.length + 6 by omega),
    Grammar.program, bind_apply, peek_apply, if_neg hend, bind_apply, hfirst]
  simp only [bind_apply, pure_apply, List.nil_append, List.append_nil]

/-- A statement that a semicolon may end is read alike with the semicolon and without it. -/
theorem Spelled.ofTokens_ended {s : Stmt}
    (h : ∀ rest, Phrase.semicolon.Spelled mid rest → (Phrase.statement (some s)).Spelled ts rest) :
    Reading.ofTokens ts =
      ⟨s :: (Reading.ofTokens mid).program, (Reading.ofTokens mid).errors⟩ := by
  by_cases hsemicolon : aheadKind mid = .semicolon
  · cases mid with
    | nil => cases hsemicolon
    | cons u us =>
        -- The semicolon ends the statement, and would be a statement by itself.
        have hempty : (Phrase.statement none).Spelled (u :: us) us := .emptyStatement hsemicolon
        rw [(h us (.semicolon hsemicolon)).ofTokens_statement, hempty.ofTokens_statement]
        rfl
  · exact (h mid (.noSemicolon hsemicolon)).ofTokens_statement

/-- An expression that is spelled is read as a statement. -/
theorem Spelled.ofTokens_expression {e : Expr} (h : (Phrase.expression lowest e).Spelled ts mid) :
    Reading.ofTokens ts =
      ⟨.expr e :: (Reading.ofTokens mid).program, (Reading.ofTokens mid).errors⟩ :=
  ofTokens_ended fun _ hend => .expr (.expressionStatement h hend)

/-- With a semicolon and other tokens in place of their end, the tokens of a program are read as the
program followed by what is read of the others. -/
theorem Spelled.join_program {a : Block} (ha : (Phrase.program a).Spelled ts rest)
    (ht : t.kind = .semicolon) (us : List Token) :
    ∃ ts', Regrown rest (t :: us) ts ts' ∧ Reading.ofTokens ts' =
      ⟨a ++ (Reading.ofTokens us).program, (Reading.ofTokens us).errors⟩ := by
  induction hn : ts.length using Nat.strongRecOn generalizing a ts with
  | ind n ih =>
      subst hn
      have hend : aheadKind rest = .eof := ha.endsBefore
      cases ha with
      | emptyProgram => exact ⟨t :: us, .rest, (Spelled.emptyStatement ht).ofTokens_statement⟩
      | program hs ha =>
          obtain ⟨mid', hmid, hread⟩ := ih _ hs.length_lt_of_statement ha rfl
          rw [List.append_assoc]
          cases hmid with
          | rest =>
              obtain ⟨ts', mid', hts, hs', rfl | rfl⟩ := hs.join_statement hend ht us
              · have hnil := ha.program_unique (.emptyProgram hend)
                subst hnil
                exact ⟨ts', hts, hs'.ofTokens_statement⟩
              · refine ⟨ts', hts, ?_⟩
                rw [hs'.ofTokens_statement, hread]
          | @cons _ behind u hmid =>
              obtain ⟨ts', hts, hs'⟩ := hs.regrow (u :: behind) rfl
              refine ⟨ts', hts.trans (hmid.cons u), ?_⟩
              rw [hs'.ofTokens_statement, hread]

end

end Phrase

namespace Reading

theorem ofTokens_tokensFrom (position : Nat) (text : String) :
    ofTokens (tokensFrom position text.toList) = ofText text := by
  rw [ofText, tokenize, ← ofTokens_bare, map_bare_tokensFrom position 0, ofTokens_bare]

/-- A semicolon on a line of its own is the token between those of two texts. -/
theorem tokensFrom_semicolonLine (position : Nat) (cs : List Char) :
    tokensFrom position ('\n' :: ';' :: '\n' :: cs) =
      ⟨.semicolon, ";", (position + 1 : Nat)⟩ :: tokensFrom (position + 3) cs := by
  have hbreak (cs : List Char) : lexeme '\n' cs = ⟨none, 0⟩ := rfl
  have hsemicolon : lexeme ';' ('\n' :: cs) = ⟨some (.semicolon, ";"), 0⟩ := rfl
  rw [tokensFrom_cons, hbreak, List.drop_zero, tokensFrom_cons, hsemicolon, List.drop_zero,
    tokensFrom_cons, hbreak, List.drop_zero]
  rfl

/-- Two texts with a semicolon on a line between them read as their programs one after the other,
if the first does not end inside a string or a comment. -/
theorem ofText_join {a b : String} {first second : Block} (ha : ofText a = ⟨first, []⟩)
    (hb : ofText b = ⟨second, []⟩) (hopen : endsOpen a.toList = false) :
    ofText (a ++ "\n;\n" ++ b) = ⟨first ++ second, []⟩ := by
  have htext : (a ++ "\n;\n" ++ b).toList = a.toList ++ '\n' :: ';' :: '\n' :: b.toList := by
    simp
  obtain ⟨ts, hts, htokens, hjoined⟩ := exists_tokensFrom_append 0 a.toList
  rw [ofText, tokenize, htokens] at ha
  obtain ⟨rest, hfirst⟩ := ofTokens_eq_iff.mp ha
  have hne : rest ≠ [] := by
    rintro rfl
    obtain ⟨seg, hseg, hproper⟩ := hfirst.taken
    rw [List.append_nil] at hseg
    cases hproper _ (hseg ▸ List.mem_append_right ts List.mem_cons_self)
  obtain ⟨ts', hregrown, hread⟩ := hfirst.join_program
    (t := ⟨.semicolon, ";", (0 + a.toList.length + 1 : Nat)⟩) rfl
    (tokensFrom (0 + a.toList.length + 3) b.toList)
  rw [hregrown.of_end hts hfirst.endsBefore hne, ← tokensFrom_semicolonLine,
    ← hjoined hopen, ← htext, ofTokens_tokensFrom, ofTokens_tokensFrom, hb] at hread
  exact hread

end Reading

/-- Tokens that are read without a fault and to their end, then a semicolon and any other tokens,
are read as the one program followed by what is read of the others. The faults are those that are
found in the others, so nothing of the first program bears on how they are read. -/
theorem readings_join_at_semicolon (ts us : List Token) (semicolon : Token)
    (hts : ∀ t ∈ ts, t.kind ≠ .eof) (hread : (Reading.ofTokens ts).errors = [])
    (hsemicolon : semicolon.kind = .semicolon) :
    Reading.ofTokens (ts ++ semicolon :: us) =
      ⟨(Reading.ofTokens ts).program ++ (Reading.ofTokens us).program,
        (Reading.ofTokens us).errors⟩ := by
  obtain ⟨rest, hspelled⟩ := Reading.program_spelled hread
  obtain ⟨ts', hregrown, hjoined⟩ := hspelled.join_program hsemicolon us
  obtain rfl := hspelled.rest_eq_nil hts
  rw [← hregrown.of_nil]
  exact hjoined

/-- Tokens of a conditional without an `else`. -/
def plainConditional : List Token :=
  [⟨.ifWord, "if", 0⟩, ⟨.lparen, "(", 3⟩, ⟨.ident, "a", 4⟩, ⟨.rparen, ")", 5⟩, ⟨.lbrace, "\x7b", 7⟩,
    ⟨.returnWord, "return", 9⟩, ⟨.rbrace, "\x7d", 16⟩]

/-- Tokens that begin with an `else` and end with a name. -/
def strayElse : List Token :=
  [⟨.elseWord, "else", 18⟩, ⟨.ident, "b", 23⟩, ⟨.eof, "", 24⟩]

theorem readings_join_at_semicolon_of_strayElse :
    (∀ t ∈ plainConditional, t.kind ≠ .eof) ∧ (Reading.ofTokens plainConditional).errors = [] ∧
      Reading.ofTokens (plainConditional ++ ⟨.semicolon, ";", 17⟩ :: strayElse) =
        ⟨[.expr (.cond (.ident "a") [.ret .missing] none), .expr .missing, .expr (.ident "b")],
          [.noOperand .elseWord]⟩ := by
  have hend : ∀ t ∈ plainConditional, t.kind ≠ .eof := by decide
  have hread : (Reading.ofTokens plainConditional).errors = [] := by decide
  refine ⟨hend, hread, ?_⟩
  exact readings_join_at_semicolon plainConditional strayElse ⟨.semicolon, ";", 17⟩ hend hread rfl

end Scripting
