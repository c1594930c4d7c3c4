import Scripting.Proofs.Token.Bare
import Scripting.Proofs.Tree.Printable

/-!
# The tokens of a printed tree

The pieces of a printed form are kept apart by marks and blanks, so no two of them make another
token or a comment together, and the tokens of the whole are those of its pieces.
-/

namespace Scripting

open Lexeme

/-! ### Pieces of a printed form -/

theorem endsRun_blank (cs : List Char) : EndsRun (' ' :: cs) :=
  endsRun_cons rfl rfl cs

/-- An operator with a blank behind it, at the head of a text. -/
theorem bareTokens_operator {op : String}
    (h : op ∈ ["+", "-", "*", "/", "<", ">", "==", "!="] ∨ op ∈ ["&&", "||"]) (cs : List Char) :
    bareTokens (op.toList ++ ' ' :: cs) = .operator op :: bareTokens cs := by
  have hlexeme : ∃ c more, op.toList = c :: more ∧
      lexeme c (more ++ ' ' :: cs) = ⟨some (.ofOperator op, op), more.length⟩ := by
    simp only [List.mem_cons, List.not_mem_nil, or_false] at h
    rcases h with (rfl | rfl | rfl | rfl | rfl | rfl | rfl | rfl) | rfl | rfl <;>
      exact ⟨_, _, rfl, rfl⟩
  obtain ⟨c, more, hop, hlexeme⟩ := hlexeme
  rw [hop, List.cons_append, bareTokens_of_token hlexeme, List.drop_left, bareTokens_blank]
  rfl

/-- A `!` or a `-` at the head of a text; `!=` would be another operator. -/
theorem bareTokens_unary {op : String} (h : op ∈ ["!", "-"]) {cs : List Char}
    (hcs : cs.head? ≠ some '=') :
    bareTokens (op.toList ++ cs) = .operator op :: bareTokens cs := by
  simp only [List.mem_cons, List.not_mem_nil, or_false] at h
  rcases h with rfl | rfl
  · have hbang : lexeme '!' cs = ⟨some (.bang, "!"), 0⟩ := by
      cases cs with
      | nil => rfl
      | cons c cs =>
          have hpair : pairSymbol? '!' c = none := by
            unfold pairSymbol?
            split <;> simp_all
          rw [lexeme_of_plain (by decide) (by decide) (by decide)]
          simp only [Lexeme.operator, hpair]
          rfl
    exact bareTokens_of_token hbang
  · exact bareTokens_mark (by decide) cs

theorem bareTokens_equals (cs : List Char) :
    bareTokens ('=' :: ' ' :: cs) = .equals :: bareTokens cs := by
  have hequals : lexeme '=' (' ' :: cs) = ⟨some (.assign, "="), 0⟩ := rfl
  rw [bareTokens_of_token hequals, List.drop_zero, bareTokens_blank]
  rfl

theorem IsWord.head {word : String} (h : IsWord word) (more : List Char) :
    ∃ c ∈ (word.toList ++ more).head?, isWordChar c = true := by
  obtain ⟨hne, hword⟩ := h
  cases hcs : word.toList with
  | nil => exact absurd (String.toList_eq_nil_iff.mp hcs) hne
  | cons c cs => exact ⟨c, rfl, hword c (hcs ▸ List.mem_cons_self)⟩

/-- No printed form makes another operator of a `!` in front of it. -/
theorem Expr.Printable.head_ne_equals {binding : Binding} {e : Expr} (h : e.Printable binding)
    (more : List Char) : (e.render.toList ++ more).head? ≠ some '=' := by
  induction h generalizing more with
  | ident h =>
      obtain ⟨c, hc, hword⟩ := h.1.head more
      rw [Expr.render, Option.mem_def.mp hc]
      rintro ⟨⟩
      cases hword
  | @int value literal h =>
      obtain ⟨hne, hdigits, -⟩ := h
      rw [Expr.render]
      cases hcs : literal.toList with
      | nil => exact absurd (String.toList_eq_nil_iff.mp hcs) hne
      | cons c cs =>
          rintro ⟨⟩
          cases hdigits _ (hcs ▸ List.mem_cons_self)
  | bool value => cases value <;> simp [Expr.render]
  | property hobject hname ih =>
      simp only [Expr.render, String.toList_append, List.append_assoc]
      exact ih _
  | call hcallee hargs ih =>
      simp only [Expr.render, String.toList_append, List.append_assoc]
      exact ih _
  | assign hassignable htarget hvalue ihtarget =>
      simp only [Expr.render, String.toList_append, List.append_assoc]
      exact ihtarget _
  | ofTight h ih => exact ih more
  | _ => simp [Expr.render]

/-- The tokens of a text, in front of whatever goes on with no word and no number of it. -/
def LexesTo (text : String) (ts : List Token) : Prop :=
  ∀ more, EndsRun more → bareTokens (text.toList ++ more) = ts ++ bareTokens more

theorem lexesTo_word {word : String} (h : IsWord word) : LexesTo word [.word word] :=
  fun _ hmore => bareTokens_word h hmore

theorem bareTokens_wordBlank {word : String} (h : IsWord word) (cs : List Char) :
    bareTokens (word.toList ++ ' ' :: cs) = .word word :: bareTokens cs := by
  rw [lexesTo_word h _ (endsRun_blank cs), bareTokens_blank]
  rfl

/-- A text between two marks. -/
theorem LexesTo.enclosed {text : String} {ts : List Token} (h : LexesTo text ts)
    {opening closing : Char} (hopening : opening ∈ marks) (hclosing : closing ∈ marks)
    (more : List Char) :
    bareTokens (opening :: (text.toList ++ closing :: more)) =
      ⟨symbol opening, String.ofList [opening], 0⟩ ::
        (ts ++ ⟨symbol closing, String.ofList [closing], 0⟩ :: bareTokens more) := by
  rw [bareTokens_mark hopening, h _ (endsRun_mark hclosing more), bareTokens_mark hclosing]

/-- The pieces of a list are kept apart by their commas. -/
theorem lexesTo_commaSeparated {α : Type} {text : α → String} {tokens : α → List Token}
    {as : List α} (h : ∀ a ∈ as, LexesTo (text a) (tokens a)) :
    LexesTo (commaSeparated (as.map text)) ([Token.comma].intercalate (as.map tokens)) := by
  intro more hmore
  rw [commaSeparated, String.toList_intercalate, List.map_map]
  induction as with
  | nil => rfl
  | cons a as ih =>
      have ha := h a List.mem_cons_self
      have ih := ih fun b hb => h b (List.mem_cons_of_mem a hb)
      cases as with
      | nil =>
          simp only [List.map_cons, List.map_nil, List.intercalate_singleton]
          exact ha more hmore
      | cons b as =>
          have hcomma : ", ".toList = [',', ' '] := rfl
          simp only [List.map_cons, List.intercalate_cons_cons, List.append_assoc, hcomma,
            Function.comp_apply, List.cons_append, List.nil_append] at ih ⊢
          rw [ha _ (endsRun_mark (by decide) _), bareTokens_mark (by decide), bareTokens_blank, ih]
          rfl

theorem lexesTo_renderAll {es : List Expr} (h : ∀ e ∈ es, LexesTo e.render e.printed) :
    LexesTo (commaSeparated (Expr.renderAll es))
      ([Token.comma].intercalate (Expr.printedAll es)) := by
  rw [Expr.renderAll_eq_map, Expr.printedAll_eq_map]
  exact lexesTo_commaSeparated h

theorem lexesTo_renderPairs {pairs : List (Expr × Expr)}
    (hkeys : ∀ pair ∈ pairs, LexesTo pair.1.render pair.1.printed)
    (hvalues : ∀ pair ∈ pairs, LexesTo pair.2.render pair.2.printed) :
    LexesTo (commaSeparated (Expr.renderPairs pairs))
      ([Token.comma].intercalate (Expr.printedPairs pairs)) := by
  rw [Expr.renderPairs_eq_map, Expr.printedPairs_eq_map]
  refine lexesTo_commaSeparated fun pair hpair more hmore => ?_
  simp only [String.toList_append, List.append_assoc, String.reduceToList, List.cons_append,
    List.nil_append]
  rw [hkeys pair hpair _ (endsRun_mark (by decide) _), bareTokens_mark (by decide),
    hvalues pair hpair more hmore]
  rfl

theorem lexesTo_infix {left right : Expr} {op : String}
    (hop : op ∈ ["+", "-", "*", "/", "<", ">", "==", "!="] ∨ op ∈ ["&&", "||"])
    (hleft : LexesTo left.render left.printed) (hright : LexesTo right.render right.printed) :
    LexesTo ("(" ++ left.render ++ " " ++ op ++ " " ++ right.render ++ ")")
      (.openParen :: (left.printed ++ .operator op :: (right.printed ++ [.closeParen]))) := by
  intro more hmore
  simp only [String.toList_append, List.append_assoc, String.reduceToList, List.cons_append,
    List.nil_append]
  rw [bareTokens_mark (by decide), hleft _ (endsRun_blank _), bareTokens_blank,
    bareTokens_operator hop, hright _ (endsRun_mark (by decide) _), bareTokens_mark (by decide)]
  rfl

theorem lexesTo_call {callee : Expr} {args : List Expr}
    (hcallee : LexesTo callee.render callee.printed)
    (hargs : ∀ e ∈ args, LexesTo e.render e.printed) :
    LexesTo (Expr.call callee args).render (Expr.call callee args).printed := by
  intro more hmore
  simp only [Expr.render, Expr.printed, String.toList_append, List.append_assoc,
    String.reduceToList, List.cons_append, List.nil_append]
  rw [hcallee _ (endsRun_mark (by decide) _),
    (lexesTo_renderAll hargs).enclosed (by decide) (by decide)]
  rfl

/-- The tokens of a printed form are those of its pieces. -/
theorem Expr.Printable.lexesTo {binding : Binding} {e : Expr} (h : e.Printable binding) :
    LexesTo e.render e.printed := by
  induction h with
  | ident h => exact lexesTo_word h.1
  | int h => exact fun _ hmore => bareTokens_digitRow h.1 h.2.1 hmore
  | bool value => cases value <;> exact lexesTo_word (by decide)
  | null => exact lexesTo_word (by decide)
  | this => exact lexesTo_word (by decide)
  | super => exact lexesTo_word (by decide)
  | array _ helements =>
      intro more hmore
      simp only [Expr.render, Expr.printed, String.toList_append, List.append_assoc,
        String.reduceToList, List.cons_append, List.nil_append]
      rw [(lexesTo_renderAll helements).enclosed (by decide) (by decide)]
      rfl
  | map _ _ hkeys hvalues =>
      intro more hmore
      simp only [Expr.render, Expr.printed, String.toList_append, List.append_assoc,
        String.reduceToList, List.cons_append, List.nil_append]
      rw [(lexesTo_renderPairs hkeys hvalues).enclosed (by decide) (by decide)]
      rfl
  | index _ _ htarget hposition =>
      intro more hmore
      simp only [Expr.render, Expr.printed, String.toList_append, List.append_assoc,
        String.reduceToList, List.cons_append, List.nil_append]
      rw [bareTokens_mark (by decide), htarget _ (endsRun_mark (by decide) _),
        hposition.enclosed (by decide) (by decide), bareTokens_mark (by decide)]
      rfl
  | property _ hname hobject =>
      intro more hmore
      simp only [Expr.render, Expr.printed, String.toList_append, List.append_assoc,
        String.reduceToList, List.cons_append, List.nil_append]
      rw [hobject _ (endsRun_mark (by decide) _), bareTokens_mark (by decide),
        lexesTo_word hname.1 more hmore]
      rfl
  | new hname _ hargs =>
      intro more hmore
      simp only [Expr.render, Expr.printed, String.toList_append, List.append_assoc,
        String.reduceToList, List.cons_append, List.nil_append]
      change bareTokens ("new".toList ++ ' ' :: _) = _
      rw [bareTokens_wordBlank (by decide), lexesTo_word hname.1 _ (endsRun_mark (by decide) _),
        (lexesTo_renderAll hargs).enclosed (by decide) (by decide)]
      rfl
  | unary hop hoperand ih =>
      intro more hmore
      simp only [Expr.render, Expr.printed, String.toList_append, List.append_assoc,
        String.reduceToList, List.cons_append, List.nil_append]
      rw [bareTokens_mark (by decide), bareTokens_unary hop (hoperand.head_ne_equals _),
        ih _ (endsRun_mark (by decide) _), bareTokens_mark (by decide)]
      rfl
  | binary hop _ _ hleft hright =>
      rw [Expr.render, Expr.printed]
      exact lexesTo_infix (.inl hop) hleft hright
  | logical hop _ _ hleft hright =>
      rw [Expr.render, Expr.printed]
      exact lexesTo_infix (.inr hop) hleft hright
  | call _ _ hcallee hargs => exact lexesTo_call hcallee hargs
  | print _ hargs => exact lexesTo_call (lexesTo_word (by decide)) hargs
  | ofTight _ h => exact h
  | assign _ _ _ htarget hvalue =>
      intro more hmore
      simp only [Expr.render, Expr.printed, String.toList_append, List.append_assoc,
        String.reduceToList, List.cons_append, List.nil_append]
      rw [htarget _ (endsRun_blank _), bareTokens_blank, bareTokens_equals, hvalue more hmore]

theorem Stmt.Printable.lexes {s : Stmt} (h : s.Printable) (cs : List Char) :
    bareTokens (s.render.toList ++ cs) = s.printed ++ bareTokens cs := by
  have hmissing : Expr.printed .missing = [] := by rw [Expr.printed]
  cases h with
  | @letIn name _ hname hvalue =>
      simp only [Stmt.render_letIn name hvalue.ne_missing, Stmt.printed, String.toList_append,
        List.append_assoc, String.reduceToList, List.cons_append, List.nil_append]
      change bareTokens ("let".toList ++ ' ' :: _) = _
      rw [bareTokens_wordBlank (by decide), bareTokens_wordBlank hname.1,
        bareTokens_equals, hvalue.lexesTo _ (endsRun_mark (by decide) _),
        bareTokens_mark (by decide)]
      rfl
  | bareReturn =>
      simp only [Stmt.render, Stmt.printed, hmissing]
      change bareTokens ("return".toList ++ ';' :: _) = _
      rw [lexesTo_word (by decide) _ (endsRun_mark (by decide) _),
        bareTokens_mark (by decide)]
      rfl
  | ret hvalue =>
      simp only [Stmt.render_ret hvalue.ne_missing, Stmt.printed, String.toList_append,
        List.append_assoc, String.reduceToList, List.cons_append, List.nil_append]
      change bareTokens ("return".toList ++ ' ' :: _) = _
      rw [bareTokens_wordBlank (by decide),
        hvalue.lexesTo _ (endsRun_mark (by decide) _), bareTokens_mark (by decide)]
      rfl

/-- The tokens of a printed program. -/
theorem Block.Printable.lexes {b : Block} (h : b.Printable) :
    bareTokens (Block.render b).toList = b.printed ++ bareTokens [] := by
  induction h with
  | nil => rfl
  | @expr e h =>
      have he := h.lexesTo [] endsRun_nil
      rw [List.append_nil] at he
      rw [Block.render, Block.render, String.append_empty, Stmt.render_expr h.ne_missing, he,
        Block.printed, List.flatMap_singleton, Stmt.printed]
  | @cons b s hs _ ih =>
      have hprinted : Block.printed (s :: b) = s.printed ++ Block.printed b := List.flatMap_cons
      rw [Block.render, String.toList_append, hs.lexes, ih, hprinted, List.append_assoc]

end Scripting
