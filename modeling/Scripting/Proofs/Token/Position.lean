import Scripting.Token.Lexer

/-!
# Positions of tokens

A text that starts further on has the same tokens further on: its first character decides about
positions and about nothing else.
-/

namespace Scripting

namespace Token

/-- The token without its position. -/
def bare (t : Token) : Token :=
  { t with position := 0 }

@[simp] theorem kind_bare (t : Token) : t.bare.kind = t.kind := rfl

@[simp] theorem literal_bare (t : Token) : t.bare.literal = t.literal := rfl

/-- The token, further on in the text. -/
def shift (distance : Int) (t : Token) : Token :=
  { t with position := t.position + distance }

@[simp] theorem kind_shift (distance : Int) (t : Token) : (t.shift distance).kind = t.kind := rfl

@[simp] theorem bare_shift (distance : Int) (t : Token) : (t.shift distance).bare = t.bare := rfl

end Token

/-- The tokens of a text that starts further on are further on by as much. -/
theorem tokensFrom_add (position distance : Nat) (cs : List Char) :
    tokensFrom (position + distance) cs = (tokensFrom position cs).map (Token.shift distance) := by
  induction hn : cs.length using Nat.strongRecOn generalizing position cs with
  | ind n ih =>
      subst hn
      cases cs with
      | nil =>
          rw [tokensFrom_nil, tokensFrom_nil, Int.natCast_add]
          rfl
      | cons c cs =>
          have hlt : (cs.drop (lexeme c cs).extra).length < (c :: cs).length := by
            rw [List.length_drop, List.length_cons]
            omega
          have hbehind : position + distance + 1 + (lexeme c cs).extra =
              position + 1 + (lexeme c cs).extra + distance := by omega
          rw [tokensFrom_cons, tokensFrom_cons, List.map_append, hbehind, ih _ hlt _ _ rfl]
          congr 1
          cases (lexeme c cs).token? with
          | none => rfl
          | some token =>
              rw [Int.natCast_add]
              rfl

/-- The tokens of a text are the same wherever it starts, but for their positions. -/
theorem map_bare_tokensFrom (position other : Nat) (cs : List Char) :
    (tokensFrom position cs).map Token.bare = (tokensFrom other cs).map Token.bare := by
  have hstart (position : Nat) :
      (tokensFrom position cs).map Token.bare = (tokensFrom 0 cs).map Token.bare := by
    have hshift := tokensFrom_add 0 position cs
    rw [Nat.zero_add] at hshift
    rw [hshift, List.map_map]
    rfl
  rw [hstart position, hstart other]

/-- Brackets are counted by kinds. -/
theorem bracketDepth_eq_of_kinds {ts us : List Token}
    (h : ts.map Token.kind = us.map Token.kind) : bracketDepth ts = bracketDepth us := by
  have hsum (ts : List Token) :
      bracketDepth ts = ((ts.map Token.kind).map TokenKind.depthChange).sum := by
    induction ts with
    | nil => rfl
    | cons t ts ih =>
        rw [bracketDepth_cons, ih]
        rfl
  rw [hsum, hsum, h]

theorem bracketDepth_map_shift (distance : Int) (ts : List Token) :
    bracketDepth (ts.map (Token.shift distance)) = bracketDepth ts := by
  apply bracketDepth_eq_of_kinds
  rw [List.map_map]
  rfl

end Scripting
