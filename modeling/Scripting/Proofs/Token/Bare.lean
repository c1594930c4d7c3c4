import Scripting.Proofs.Reading.Position
import Scripting.Proofs.Token.Word

/-!
# The tokens of a text, one by one

What the tokens of a text are, positions left out, when a word, a row of digits, a mark or an
operator stands at its head. A word and a row of digits are as long as they can be, so they are
followed by something that continues neither.
-/

namespace Scripting

open Lexeme

/-- The tokens of a text without their positions. -/
def bareTokens (cs : List Char) : List Token :=
  (tokensFrom 0 cs).map Token.bare

theorem bareTokens_nil : bareTokens [] = [⟨.eof, "", 0⟩] := by
  rw [bareTokens, tokensFrom_nil]
  rfl

theorem bareTokens_of_token {c : Char} {cs : List Char} {kind : TokenKind} {literal : String}
    {extra : Nat} (h : lexeme c cs = ⟨some (kind, literal), extra⟩) :
    bareTokens (c :: cs) = ⟨kind, literal, 0⟩ :: bareTokens (cs.drop extra) := by
  rw [bareTokens, tokensFrom_cons, h, List.map_append, map_bare_tokensFrom _ 0]
  rfl

theorem bareTokens_blank (cs : List Char) : bareTokens (' ' :: cs) = bareTokens cs := by
  have hblank : lexeme ' ' cs = ⟨none, 0⟩ := rfl
  rw [bareTokens, tokensFrom_cons, hblank, List.drop_zero, List.nil_append,
    map_bare_tokensFrom _ 0]
  rfl

/-- No word and no row of digits goes on with the text. -/
def EndsRun (cs : List Char) : Prop :=
  ∀ c ∈ cs.head?, isWordChar c = false ∧ isDigit c = false

theorem endsRun_nil : EndsRun [] := fun _ h => nomatch h

theorem endsRun_cons {c : Char} (hword : isWordChar c = false) (hdigit : isDigit c = false)
    (cs : List Char) : EndsRun (c :: cs) := by
  rintro d ⟨⟩
  exact ⟨hword, hdigit⟩

/-- A run is taken as a whole from the head of a text that does not go on with it. -/
theorem takeWhile_append_of_stops {p : Char → Bool} {run rest : List Char}
    (hrun : ∀ c ∈ run, p c = true) (hrest : ∀ c ∈ rest.head?, p c = false) :
    (run ++ rest).takeWhile p = run := by
  have hstop : rest.takeWhile p = [] := by
    cases rest with
    | nil => rfl
    | cons c rest => rw [List.takeWhile_cons, hrest c rfl]; rfl
  rw [List.takeWhile_append_of_pos hrun, hstop, List.append_nil]

/-- What starts neither a blank, nor a comment, nor a string. -/
theorem lexeme_of_plain {c : Char} (hseparator : isSeparator c = false) (hslash : c ≠ '/')
    (hquote : c ≠ '"') (cs : List Char) :
    lexeme c cs =
      if isWordChar c then
        let word := String.ofList (c :: cs.takeWhile isWordChar)
        ⟨some (.ofWord word, word), (cs.takeWhile isWordChar).length⟩
      else if isDigit c then
        ⟨some (.int, String.ofList (c :: cs.takeWhile isDigit)), (cs.takeWhile isDigit).length⟩
      else Lexeme.operator c cs := by
  unfold lexeme
  simp only [hseparator, hslash, hquote, Bool.false_eq_true, false_and, if_false]

theorem plain_of_run {c : Char} (h : isWordChar c = true ∨ isDigit c = true) :
    isSeparator c = false ∧ c ≠ '/' ∧ c ≠ '"' := by
  refine ⟨?_, ?_, ?_⟩
  · refine Bool.eq_false_iff.mpr fun hseparator => ?_
    simp only [isSeparator, Bool.or_eq_true, beq_iff_eq] at hseparator
    rcases hseparator with ((rfl | rfl) | rfl) | rfl <;> revert h <;> decide
  · rintro rfl
    revert h
    decide
  · rintro rfl
    revert h
    decide

theorem not_isWordChar_of_isDigit {c : Char} (h : isDigit c = true) : isWordChar c = false := by
  refine Bool.eq_false_iff.mpr fun hword => ?_
  simp only [isDigit, isWordChar, Bool.and_eq_true, Bool.or_eq_true, decide_eq_true_eq, beq_iff_eq,
    Char.le_def, UInt32.le_iff_toNat_le] at h hword
  rcases hword with (⟨hlow, -⟩ | ⟨hlow, -⟩) | rfl
  · have := Nat.le_trans hlow h.2
    revert this
    decide
  · have := Nat.le_trans hlow h.2
    revert this
    decide
  · revert h
    decide

theorem lexeme_of_isWordChar {c : Char} (h : isWordChar c = true) (cs : List Char) :
    lexeme c cs =
      ⟨some (.ofWord (String.ofList (c :: cs.takeWhile isWordChar)),
        String.ofList (c :: cs.takeWhile isWordChar)), (cs.takeWhile isWordChar).length⟩ := by
  obtain ⟨hseparator, hslash, hquote⟩ := plain_of_run (.inl h)
  rw [lexeme_of_plain hseparator hslash hquote, if_pos h]

theorem lexeme_of_isDigit {c : Char} (h : isDigit c = true) (cs : List Char) :
    lexeme c cs =
      ⟨some (.int, String.ofList (c :: cs.takeWhile isDigit)), (cs.takeWhile isDigit).length⟩ := by
  obtain ⟨hseparator, hslash, hquote⟩ := plain_of_run (.inr h)
  rw [lexeme_of_plain hseparator hslash hquote, not_isWordChar_of_isDigit h,
    if_neg Bool.false_ne_true, if_pos h]

/-- A run of characters is what stands at the head of a text that does not go on with it. -/
theorem exists_lexeme_run {p : Char → Bool} (kind : String → TokenKind)
    (hlexeme : ∀ c cs, p c = true → lexeme c cs =
      ⟨some (kind (String.ofList (c :: cs.takeWhile p)), String.ofList (c :: cs.takeWhile p)),
        (cs.takeWhile p).length⟩)
    {run : String} (hne : run ≠ "") (hrun : ∀ c ∈ run.toList, p c = true) {rest : List Char}
    (hrest : ∀ c ∈ rest.head?, p c = false) :
    ∃ c more, run.toList = c :: more ∧
      lexeme c (more ++ rest) = ⟨some (kind run, run), more.length⟩ := by
  cases hcs : run.toList with
  | nil => exact absurd (String.toList_eq_nil_iff.mp hcs) hne
  | cons c more =>
      rw [hcs] at hrun
      have htake : (more ++ rest).takeWhile p = more :=
        takeWhile_append_of_stops (fun d hd => hrun d (List.mem_cons_of_mem c hd)) hrest
      have hhead := hlexeme c (more ++ rest) (hrun c List.mem_cons_self)
      rw [htake, ← hcs, String.ofList_toList] at hhead
      exact ⟨c, more, rfl, hhead⟩

/-- A run of characters at the head of a text is one token, if its characters alone go on with
it. -/
theorem bareTokens_run {p : Char → Bool} (kind : String → TokenKind)
    (hlexeme : ∀ c cs, p c = true → lexeme c cs =
      ⟨some (kind (String.ofList (c :: cs.takeWhile p)), String.ofList (c :: cs.takeWhile p)),
        (cs.takeWhile p).length⟩)
    {run : String} (hne : run ≠ "") (hrun : ∀ c ∈ run.toList, p c = true) {rest : List Char}
    (hrest : ∀ c ∈ rest.head?, p c = false) :
    bareTokens (run.toList ++ rest) = ⟨kind run, run, 0⟩ :: bareTokens rest := by
  obtain ⟨c, more, hcs, hhead⟩ := exists_lexeme_run kind hlexeme hne hrun hrest
  rw [hcs, List.cons_append, bareTokens_of_token hhead, List.drop_left]

/-- A text with word characters only. -/
def IsWord (word : String) : Prop :=
  word ≠ "" ∧ ∀ c ∈ word.toList, isWordChar c = true

instance (word : String) : Decidable (IsWord word) :=
  decidable_of_iff (word ≠ "" ∧ word.toList.all isWordChar = true)
    (and_congr_right fun _ => List.all_eq_true)

theorem bareTokens_word {word : String} (h : IsWord word) {rest : List Char}
    (hrest : EndsRun rest) :
    bareTokens (word.toList ++ rest) = ⟨.ofWord word, word, 0⟩ :: bareTokens rest :=
  bareTokens_run TokenKind.ofWord (fun _ cs hc => lexeme_of_isWordChar hc cs) h.1 h.2
    fun c hc => (hrest c hc).1

theorem bareTokens_digitRow {literal : String} (hne : literal ≠ "") (h : DigitRow literal)
    {rest : List Char} (hrest : EndsRun rest) :
    bareTokens (literal.toList ++ rest) = ⟨.int, literal, 0⟩ :: bareTokens rest :=
  bareTokens_run (fun _ => .int) (fun _ cs hc => lexeme_of_isDigit hc cs) hne h
    fun c hc => (hrest c hc).2

/-- The characters that are a token by themselves, whatever follows. -/
def marks : List Char :=
  ['(', ')', '[', ']', '\x7b', '\x7d', ',', ':', ';', '.', '-']

theorem bareTokens_mark {c : Char} (h : c ∈ marks) (cs : List Char) :
    bareTokens (c :: cs) = ⟨symbol c, String.ofList [c], 0⟩ :: bareTokens cs := by
  have hlexeme : lexeme c cs = ⟨some (symbol c, String.ofList [c]), 0⟩ := by
    simp only [marks, List.mem_cons, List.not_mem_nil, or_false] at h
    rcases h with rfl | rfl | rfl | rfl | rfl | rfl | rfl | rfl | rfl | rfl | rfl <;>
      cases cs <;> rfl
  rw [bareTokens_of_token hlexeme, List.drop_zero]

theorem endsRun_mark {c : Char} (h : c ∈ marks) (cs : List Char) : EndsRun (c :: cs) := by
  have hstops : marks.all (fun c => !isWordChar c && !isDigit c) = true := by decide
  have hc := List.all_eq_true.mp hstops c h
  rw [Bool.and_eq_true, Bool.not_eq_true', Bool.not_eq_true'] at hc
  exact endsRun_cons hc.1 hc.2 cs

end Scripting
