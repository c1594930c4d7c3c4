import Scripting.Token

/-!
# Nested brackets

The brackets of a token list are nested when each opening bracket is closed by a bracket of its own
kind, with nested brackets in between. `Closes awaited ts` says so of tokens that stand inside
brackets that were opened before them: `awaited` lists the kinds that close those, innermost first.
-/

namespace Scripting

namespace TokenKind

/-- The kind of bracket that closes an opening one. -/
def closer? : TokenKind → Option TokenKind
  | lparen => some rparen
  | lbrace => some rbrace
  | lbracket => some rbracket
  | _ => none

theorem depthChange_of_closer? {kind close : TokenKind} (h : kind.closer? = some close) :
    kind.depthChange = 1 := by
  cases kind <;> first | rfl | cases h

end TokenKind

/-- The tokens close the awaited brackets in their order, and every bracket that they open. -/
inductive Closes : List TokenKind → List Token → Prop where
  | nil : Closes [] []
  | plain {awaited : List TokenKind} {t : Token} {ts : List Token}
      (ht : t.kind.depthChange = 0) (h : Closes awaited ts) : Closes awaited (t :: ts)
  | opening {awaited : List TokenKind} {close : TokenKind} {t : Token} {ts : List Token}
      (ht : t.kind.closer? = some close) (h : Closes (close :: awaited) ts) :
      Closes awaited (t :: ts)
  | closing {awaited : List TokenKind} {t : Token} {ts : List Token}
      (ht : t.kind.depthChange = -1) (h : Closes awaited ts) :
      Closes (t.kind :: awaited) (t :: ts)

/-- Each bracket that the tokens open is closed by its own kind, and no other is closed. -/
def Nested (ts : List Token) : Prop :=
  Closes [] ts

namespace Closes

variable {awaited : List TokenKind} {ts earlier later : List Token}

/-- No more brackets are closed on the way than were open before. -/
theorem depth_ge (h : Closes awaited (earlier ++ later)) :
    0 ≤ awaited.length + bracketDepth earlier := by
  induction earlier generalizing awaited with
  | nil =>
      rw [bracketDepth_nil, Int.add_zero]
      exact Int.natCast_nonneg _
  | cons t earlier ih =>
      rw [bracketDepth_cons]
      cases h with
      | plain ht h =>
          rw [ht, Int.zero_add]
          exact ih h
      | opening ht h =>
          have hinside := ih h
          rw [List.length_cons] at hinside
          rw [TokenKind.depthChange_of_closer? ht]
          omega
      | closing ht h =>
          have hbehind := ih h
          rw [List.length_cons, ht]
          omega

/-- At the end all the brackets are closed that were open before, and no others. -/
theorem depth_eq (h : Closes awaited ts) : awaited.length + bracketDepth ts = 0 := by
  induction h with
  | nil => rfl
  | plain ht _ ih =>
      rw [bracketDepth_cons, ht, Int.zero_add]
      exact ih
  | opening ht _ ih =>
      rw [List.length_cons] at ih
      rw [bracketDepth_cons, TokenKind.depthChange_of_closer? ht]
      omega
  | closing ht _ ih =>
      rw [bracketDepth_cons, List.length_cons, ht]
      omega

end Closes

namespace Nested

variable {ts earlier later : List Token}

/-- The running depth is never negative. -/
theorem depth_nonneg (h : Nested (earlier ++ later)) : 0 ≤ bracketDepth earlier := by
  have hdepth := Closes.depth_ge h
  rwa [List.length_nil, Int.natCast_zero, Int.zero_add] at hdepth

theorem depth_eq_zero (h : Nested ts) : bracketDepth ts = 0 := by
  have hdepth := Closes.depth_eq h
  rwa [List.length_nil, Int.natCast_zero, Int.zero_add] at hdepth

end Nested

end Scripting
