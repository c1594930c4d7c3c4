import Scripting.Proofs.Token.DigitRow

/-!
# The tokens of joined texts

The tokens of two texts with a line break between them are those of the first followed by those of
the second, if the first does not end inside a string or a block comment: the line break ends every
other token and every line comment.
-/

namespace Scripting

/-- Whether a block comment is closed in the text behind its opening. -/
def closesComment : List Char → Bool
  | [] => false
  | '*' :: '/' :: _ => true
  | _ :: cs => closesComment cs

/-- Whether a string or a block comment starts at the head of `c :: cs` and is not closed. -/
def opensUnclosed (c : Char) (cs : List Char) : Bool :=
  (c == '"' && !cs.contains '"') || (c == '/' && cs.head? == some '*' && !closesComment cs.tail)

/-- Whether a text ends inside a string or a block comment that is not closed. -/
def endsOpen : List Char → Bool
  | [] => false
  | c :: cs => opensUnclosed c cs || endsOpen (cs.drop (lexeme c cs).extra)
termination_by cs => cs.length
decreasing_by simp only [List.length_drop, List.length_cons]; omega

theorem endsOpen_cons (c : Char) (cs : List Char) :
    endsOpen (c :: cs) =
      (opensUnclosed c cs || endsOpen (cs.drop (lexeme c cs).extra)) := by
  rw [endsOpen]

/-- A character that fails the test ends what is taken, whatever follows. -/
theorem takeWhile_append_of_head {α : Type} {p : α → Bool} {a : α} (h : p a = false)
    (as bs : List α) : (as ++ a :: bs).takeWhile p = as.takeWhile p := by
  induction as with
  | nil => simp [h]
  | cons x as ih => rw [List.cons_append, List.takeWhile_cons, List.takeWhile_cons, ih]

theorem takeWhile_append_of_mem {α : Type} {p : α → Bool} {a : α} (h : p a = false) {as : List α}
    (ha : a ∈ as) (bs : List α) :
    (as ++ bs).takeWhile p = as.takeWhile p ∧ (as.takeWhile p).length < as.length := by
  obtain ⟨front, behind, rfl⟩ := List.append_of_mem ha
  rw [List.append_assoc, List.cons_append, takeWhile_append_of_head h,
    takeWhile_append_of_head h, List.length_append, List.length_cons]
  refine ⟨rfl, ?_⟩
  have hle := (List.takeWhile_prefix p (l := front)).length_le
  omega

theorem commentLength_append {cs : List Char} (h : closesComment cs = true) (more : List Char) :
    Lexeme.commentLength (cs ++ more) = Lexeme.commentLength cs := by
  induction cs using closesComment.induct with
  | case1 => cases h
  | case2 cs => rfl
  | case3 c cs hne ih =>
      rw [closesComment] at h
      · have hne' : ∀ rest, c = '*' → cs ++ more = '/' :: rest → False := by
          intro rest hc hrest
          cases cs with
          | nil => cases h
          | cons d cs =>
              obtain ⟨rfl, -⟩ := List.cons.inj hrest
              exact hne cs hc rfl
        rw [List.cons_append, Lexeme.commentLength.eq_3 _ _ hne', Lexeme.commentLength.eq_3 _ _ hne,
          ih h]
      · exact hne

/-- A line break behind a text changes nothing of what stands at its head, unless that is a string
or a block comment that is not closed. -/
theorem lexeme_append {c : Char} {cs : List Char} (h : opensUnclosed c cs = false)
    (more : List Char) : lexeme c (cs ++ '\n' :: more) = lexeme c cs := by
  have htake {p : Char → Bool} (hp : p '\n' = false) :
      (cs ++ '\n' :: more).takeWhile p = cs.takeWhile p := takeWhile_append_of_head hp cs more
  have hhead (d : Char) (hd : d ≠ '\n') :
      (cs ++ '\n' :: more).head? = some d ↔ cs.head? = some d := by
    cases cs with
    | nil => simpa using hd.symm
    | cons e cs => rfl
  unfold lexeme
  simp only [hhead '/' (by decide), hhead '*' (by decide)]
  split
  · rfl
  split
  · rw [htake (by rfl)]
  split
  · next hcomment =>
      obtain ⟨rfl, hstar⟩ := hcomment
      cases cs with
      | nil => cases hstar
      | cons d cs =>
          have hclosed : closesComment cs = true := by simpa [opensUnclosed, hstar] using h
          rw [List.cons_append, List.tail_cons, List.tail_cons, commentLength_append hclosed]
  split
  · next hquote =>
      subst hquote
      have hclosed : '"' ∈ cs := by simpa [opensUnclosed] using h
      obtain ⟨hbody, hlt⟩ :=
        takeWhile_append_of_mem (p := (· != '"')) (by decide) hclosed ('\n' :: more)
      rw [hbody, List.length_append, Nat.min_eq_left hlt,
        Nat.min_eq_left (Nat.le_trans hlt (Nat.le_add_right _ _))]
  split
  · rw [htake (by rfl)]
  split
  · rw [htake (by rfl)]
  · cases cs with
    | nil =>
        have hpair : Lexeme.pairSymbol? c '\n' = none := by
          unfold Lexeme.pairSymbol?
          split <;> first | rfl | contradiction
        simp [Lexeme.operator, hpair]
    | cons d cs => rfl

theorem ofWord_ne_eof (word : String) : TokenKind.ofWord word ≠ .eof := by
  unfold TokenKind.ofWord
  split <;> exact TokenKind.noConfusion

/-- Nothing in a text is an end token. -/
theorem kind_ne_eof_of_lexeme {c : Char} {cs : List Char} {kind : TokenKind} {literal : String}
    (h : (lexeme c cs).token? = some (kind, literal)) : kind ≠ .eof := by
  unfold lexeme at h
  split at h
  · cases h
  split at h
  · cases h
  split at h
  · cases h
  split at h
  · cases h
    exact TokenKind.noConfusion
  split at h
  · cases h
    exact ofWord_ne_eof _
  split at h
  · cases h
    exact TokenKind.noConfusion
  · rintro rfl
    cases Lexeme.isSymbol_operator h

/-- The token at the head of a text, if there is one. -/
def headToken (position : Nat) (c : Char) (cs : List Char) : List Token :=
  match (lexeme c cs).token? with
  | some (kind, literal) => [⟨kind, literal, position⟩]
  | none => []

/-- The tokens of a text are the end token and, in front of it, others, and these come first among
those of the text with a line break and more behind it. -/
theorem exists_tokensFrom_append (position : Nat) (cs : List Char) :
    ∃ ts, (∀ t ∈ ts, t.kind ≠ .eof) ∧
      tokensFrom position cs = ts ++ [⟨.eof, "", (position + cs.length : Nat)⟩] ∧
      (endsOpen cs = false → ∀ more, tokensFrom position (cs ++ '\n' :: more) =
        ts ++ tokensFrom (position + cs.length) ('\n' :: more)) := by
  induction hn : cs.length using Nat.strongRecOn generalizing position cs with
  | ind n ih =>
      subst hn
      cases cs with
      | nil =>
          exact ⟨[], fun _ h => (List.not_mem_nil h).elim, tokensFrom_nil position,
            fun _ _ => rfl⟩
      | cons c cs =>
          have hextra := lexeme_extra_le c cs
          have hlt : (cs.drop (lexeme c cs).extra).length < (c :: cs).length := by
            rw [List.length_drop, List.length_cons]
            omega
          have hposition : position + 1 + (lexeme c cs).extra +
              (cs.drop (lexeme c cs).extra).length = position + (c :: cs).length := by
            rw [List.length_drop, List.length_cons]
            omega
          obtain ⟨ts, hts, hend, hmore⟩ := ih _ hlt (position + 1 + (lexeme c cs).extra) _ rfl
          rw [hposition] at hend hmore
          have hhead : ∀ t ∈ headToken position c cs, t.kind ≠ .eof := by
            intro t ht
            unfold headToken at ht
            split at ht
            · next kind literal hl =>
                rw [List.mem_singleton.mp ht]
                exact kind_ne_eof_of_lexeme hl
            · cases ht
          refine ⟨headToken position c cs ++ ts, ?_, ?_, fun hopen more => ?_⟩
          · intro t ht
            exact (List.mem_append.mp ht).elim (hhead t) (hts t)
          · rw [tokensFrom_cons, hend, List.append_assoc]
            rfl
          · rw [endsOpen_cons, Bool.or_eq_false_iff] at hopen
            rw [List.cons_append, tokensFrom_cons, lexeme_append hopen.1,
              List.drop_append_of_le_length hextra, hmore hopen.2, List.append_assoc]
            rfl

end Scripting
