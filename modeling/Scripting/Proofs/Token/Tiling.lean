import Scripting.Proofs.Token.Trivia

/-!
# Texts as tiles

A text is a row of tiles, each the trivia in front of a token and the lexeme that spells it, with
trivia at the end. `Spells` says what a lexeme looks like and what may not stand behind it, so that
no lexeme could be longer; `Tiled` puts tokens and text together. A text can be tiled in one way
only, and `tokenize` finds it.
-/

namespace Scripting

open Lexeme

/-! ### Lexemes -/

/-- The operators and punctuation. -/
def TokenKind.isOperator (kind : TokenKind) : Bool :=
  kind.isSymbol && kind != .illegal

/-- Whether a character behind an operator makes another token or a comment of the two. -/
def TokenKind.goesOnWith : TokenKind → Char → Bool
  | .assign, '=' | .bang, '=' | .slash, '/' | .slash, '*' => true
  | _, _ => false

/-- The characters that operators and punctuation start with, but for `&` and `|`, which are no
tokens by themselves. -/
def operatorChars : List Char :=
  ['=', '+', '-', '!', '*', '/', '<', '>', ',', ';', ':', '.', '(', ')', '\x7b', '\x7d', '[', ']']

/-- Whether a blank, a comment or a token starts with a character, whatever follows. -/
def startsLexeme (c : Char) : Bool :=
  isSeparator c || c == '"' || isWordChar c || isDigit c || operatorChars.contains c

/-- The lexemes of tokens, in front of the text `rest`. The closing quote belongs to the lexeme of a
string; a string at the end of the text may lack it. -/
inductive Spells (rest : List Char) : TokenKind → String → List Char → Prop where
  | word {word : String} (h : IsWord word) (hrest : ∀ c ∈ rest.head?, isWordChar c = false) :
      Spells rest (.ofWord word) word word.toList
  | digits {row : String} (hne : row ≠ "") (h : DigitRow row)
      (hrest : ∀ c ∈ rest.head?, isDigit c = false) : Spells rest .int row row.toList
  | string {body : String} (h : '"' ∉ body.toList) :
      Spells rest .string body ('"' :: (body.toList ++ ['"']))
  | openString {body : String} (h : '"' ∉ body.toList) (hrest : rest = []) :
      Spells rest .string body ('"' :: body.toList)
  | operator {kind : TokenKind} (h : kind.isOperator = true)
      (hrest : ∀ c ∈ rest.head?, kind.goesOnWith c = false) :
      Spells rest kind kind.display kind.display.toList
  | stray {c : Char} (h : startsLexeme c = false)
      (hrest : c = '&' ∨ c = '|' → rest.head? ≠ some c) :
      Spells rest .illegal (String.ofList [c]) [c]

/-- The tokens of a text whose first character stands at a position: each behind its trivia, and the
end token behind the last trivia. -/
inductive Tiled : Nat → List Char → List Token → Prop where
  | last {position : Nat} {cs : List Char} (h : IsLastTrivia cs) :
      Tiled position cs [⟨.eof, "", (position + cs.length : Nat)⟩]
  | token {position : Nat} {gap lexeme rest : List Char} {kind : TokenKind} {literal : String}
      {ts : List Token} (hgap : IsTrivia gap) (hlexeme : Spells rest kind literal lexeme)
      (hrest : Tiled (position + gap.length + lexeme.length) rest ts) :
      Tiled position (gap ++ (lexeme ++ rest))
        (⟨kind, literal, (position + gap.length : Nat)⟩ :: ts)

/-! ### What is spelled is scanned -/

theorem lexeme_quote (cs : List Char) :
    lexeme '"' cs = ⟨some (.string, String.ofList (cs.takeWhile (· != '"'))),
      min ((cs.takeWhile (· != '"')).length + 1) cs.length⟩ := rfl

theorem takeWhile_quote {body : String} (h : '"' ∉ body.toList) {rest : List Char}
    (hrest : ∀ c ∈ rest.head?, c = '"') :
    (body.toList ++ rest).takeWhile (· != '"') = body.toList := by
  refine takeWhile_append_of_stops (fun c hc => ?_) fun c hc => ?_
  · exact bne_iff_ne.mpr fun heq => h (heq ▸ hc)
  · rw [hrest c hc]
    rfl

/-- What starts neither a blank, nor a comment, nor a string, nor a run of its class is an operator
or no token. -/
theorem lexeme_eq_operator {c : Char} {cs : List Char} (hseparator : isSeparator c = false)
    (hquote : c ≠ '"') (hword : isWordChar c = false) (hdigit : isDigit c = false)
    (hcomment : c = '/' → cs.head? ≠ some '/' ∧ cs.head? ≠ some '*') :
    lexeme c cs = Lexeme.operator c cs := by
  have hline : ¬(c = '/' ∧ cs.head? = some '/') := fun h => (hcomment h.1).1 h.2
  have hblock : ¬(c = '/' ∧ cs.head? = some '*') := fun h => (hcomment h.1).2 h.2
  rw [lexeme, hseparator, if_neg Bool.false_ne_true, if_neg hline, if_neg hblock, if_neg hquote,
    hword, if_neg Bool.false_ne_true, hdigit, if_neg Bool.false_ne_true]

theorem operator_of_single {c : Char} {cs : List Char}
    (h : ∀ d ∈ cs.head?, pairSymbol? c d = none) :
    Lexeme.operator c cs = ⟨some (symbol c, String.ofList [c]), 0⟩ := by
  cases cs with
  | nil => rfl
  | cons d cs =>
      have hpair : pairSymbol? c d = none := h d rfl
      simp only [Lexeme.operator, hpair]

theorem operator_of_pair {c d : Char} {kind : TokenKind} (h : pairSymbol? c d = some kind)
    (cs : List Char) : Lexeme.operator c (d :: cs) = ⟨some (kind, String.ofList [c, d]), 1⟩ := by
  simp only [Lexeme.operator, h]

/-- Only the characters of operators are a token by themselves. -/
theorem symbol_eq_illegal_iff (c : Char) : symbol c = .illegal ↔ c ∉ operatorChars := by
  unfold symbol
  split <;> simp_all [operatorChars]

theorem display_symbol {c : Char} (h : symbol c ≠ .illegal) :
    (symbol c).isOperator = true ∧ (symbol c).display = String.ofList [c] := by
  unfold symbol at h ⊢
  split at h <;> first | exact ⟨rfl, rfl⟩ | exact absurd rfl h

theorem display_pairSymbol {c d : Char} {kind : TokenKind} (h : pairSymbol? c d = some kind) :
    kind.isOperator = true ∧ kind.display = String.ofList [c, d] ∧
      ∀ e, kind.goesOnWith e = false := by
  unfold pairSymbol? at h
  split at h <;> cases h <;> exact ⟨rfl, rfl, fun _ => rfl⟩

/-- The operators and punctuation are spelled with one character or with two. -/
theorem display_toList_of_isOperator {kind : TokenKind} (h : kind.isOperator = true) :
    (∃ c, kind.display.toList = [c] ∧ symbol c = kind) ∨
      ∃ c d, kind.display.toList = [c, d] ∧ pairSymbol? c d = some kind := by
  cases kind with
  | eq | notEq | and | or => exact .inr ⟨_, _, rfl, rfl⟩
  | assign | plus | minus | bang | asterisk | slash | lt | gt | comma | semicolon | colon | dot
  | lparen | rparen | lbrace | rbrace | lbracket | rbracket => exact .inl ⟨_, rfl, rfl⟩
  | _ => cases h

theorem goesOnWith_of_pairSymbol {c d : Char} {kind : TokenKind} (h : pairSymbol? c d = some kind) :
    (symbol c).goesOnWith d = true ∨ ((c = '&' ∨ c = '|') ∧ d = c) := by
  unfold pairSymbol? at h
  split at h <;> simp_all [symbol, TokenKind.goesOnWith]

theorem plain_of_mem_operatorChars {c : Char} (h : c ∈ operatorChars) :
    isSeparator c = false ∧ c ≠ '"' ∧ isWordChar c = false ∧ isDigit c = false := by
  simp only [operatorChars, List.mem_cons, List.not_mem_nil, or_false] at h
  rcases h with rfl | rfl | rfl | rfl | rfl | rfl | rfl | rfl | rfl | rfl | rfl | rfl | rfl | rfl |
    rfl | rfl | rfl | rfl <;> decide

/-- A character of no longer lexeme is scanned by itself. -/
theorem lexeme_of_symbol {c : Char} {cs : List Char} (hseparator : isSeparator c = false)
    (hquote : c ≠ '"') (hword : isWordChar c = false) (hdigit : isDigit c = false)
    (hgoes : ∀ d ∈ cs.head?, (symbol c).goesOnWith d = false)
    (htwin : c = '&' ∨ c = '|' → cs.head? ≠ some c) :
    lexeme c cs = ⟨some (symbol c, String.ofList [c]), 0⟩ := by
  have hcomment : c = '/' → cs.head? ≠ some '/' ∧ cs.head? ≠ some '*' := by
    rintro rfl
    exact ⟨fun hd => (nomatch hgoes _ hd), fun hd => (nomatch hgoes _ hd)⟩
  have hpair : ∀ d ∈ cs.head?, pairSymbol? c d = none := by
    intro d hd
    cases hp : pairSymbol? c d with
    | none => rfl
    | some kind =>
        rcases goesOnWith_of_pairSymbol hp with hd' | ⟨hc, rfl⟩
        · rw [hgoes d hd] at hd'
          cases hd'
        · exact absurd hd (htwin hc)
  rw [lexeme_eq_operator hseparator hquote hword hdigit hcomment, operator_of_single hpair]

theorem lexeme_of_isOperator {kind : TokenKind} (h : kind.isOperator = true) {rest : List Char}
    (hrest : ∀ c ∈ rest.head?, kind.goesOnWith c = false) :
    ∃ c more, kind.display.toList = c :: more ∧
      lexeme c (more ++ rest) = ⟨some (kind, kind.display), more.length⟩ := by
  rcases display_toList_of_isOperator h with ⟨c, hdisplay, rfl⟩ | ⟨c, d, hdisplay, hpair⟩
  · have hne : symbol c ≠ .illegal := fun hc => by
      rw [hc] at h
      cases h
    have hmem : c ∈ operatorChars :=
      Decidable.of_not_not fun hc => hne ((symbol_eq_illegal_iff c).mpr hc)
    obtain ⟨hseparator, hquote, hword, hdigit⟩ := plain_of_mem_operatorChars hmem
    have htwin : c = '&' ∨ c = '|' → rest.head? ≠ some c := by
      rintro (rfl | rfl) <;> exact absurd hmem (by decide)
    refine ⟨c, [], hdisplay, ?_⟩
    rw [List.nil_append, lexeme_of_symbol hseparator hquote hword hdigit hrest htwin, ← hdisplay,
      String.ofList_toList]
    rfl
  · have hlexeme : lexeme c (d :: rest) = Lexeme.operator c (d :: rest) := by
      unfold pairSymbol? at hpair
      split at hpair <;> first | rfl | cases hpair
    refine ⟨c, [d], hdisplay, ?_⟩
    rw [List.singleton_append, hlexeme, operator_of_pair hpair, ← hdisplay, String.ofList_toList]
    rfl

/-- A lexeme is scanned as the token that it spells, and no further. -/
theorem Spells.lexeme_eq {rest : List Char} {kind : TokenKind} {literal : String} {cs : List Char}
    (h : Spells rest kind literal cs) :
    ∃ c more, cs = c :: more ∧
      lexeme c (more ++ rest) = ⟨some (kind, literal), more.length⟩ := by
  cases h with
  | word h hrest =>
      exact exists_lexeme_run TokenKind.ofWord (fun _ _ hc => lexeme_of_isWordChar hc _) h.1 h.2
        hrest
  | digits hne h hrest =>
      exact exists_lexeme_run (fun _ => .int) (fun _ _ hc => lexeme_of_isDigit hc _) hne h hrest
  | string h =>
      refine ⟨'"', literal.toList ++ ['"'], rfl, ?_⟩
      have htake : (literal.toList ++ '"' :: rest).takeWhile (· != '"') = literal.toList :=
        takeWhile_quote h fun _ hc => (Option.mem_some_iff.mp hc).symm
      rw [List.append_assoc, List.singleton_append, lexeme_quote, htake, String.ofList_toList]
      simp only [List.length_append, List.length_cons, List.length_nil]
      congr 1
      omega
  | openString h hrest =>
      subst hrest
      refine ⟨'"', literal.toList, rfl, ?_⟩
      have htake : (literal.toList ++ []).takeWhile (· != '"') = literal.toList :=
        takeWhile_quote h fun _ hc => nomatch hc
      rw [lexeme_quote, htake, String.ofList_toList, List.append_nil, Nat.min_eq_right (by omega)]
  | operator h hrest => exact lexeme_of_isOperator h hrest
  | @stray c h hrest =>
      simp only [startsLexeme, Bool.or_eq_false_iff, beq_eq_false_iff_ne, List.contains_eq_mem,
        decide_eq_false_iff_not] at h
      obtain ⟨⟨⟨⟨hseparator, hquote⟩, hword⟩, hdigit⟩, hmem⟩ := h
      have hsymbol : symbol c = .illegal := (symbol_eq_illegal_iff c).mpr hmem
      have hgoes : ∀ d ∈ rest.head?, (symbol c).goesOnWith d = false := by
        rw [hsymbol]
        exact fun _ _ => rfl
      refine ⟨c, [], rfl, ?_⟩
      rw [List.nil_append, lexeme_of_symbol hseparator hquote hword hdigit hgoes hrest, hsymbol]
      rfl

/-! ### What is scanned is spelled -/

/-- A text is the run at its head and what does not go on with it. -/
theorem exists_run_append (p : Char → Bool) (cs : List Char) :
    ∃ rest, cs = cs.takeWhile p ++ rest ∧ (∀ c ∈ cs.takeWhile p, p c = true) ∧
      ∀ c ∈ rest.head?, p c = false := by
  refine ⟨cs.dropWhile p, List.takeWhile_append_dropWhile.symm, ?_, fun c hc => ?_⟩
  · exact List.all_eq_true.mp List.all_takeWhile
  · have hstop := List.head?_dropWhile_not p cs
    rwa [Option.mem_def.mp hc] at hstop

theorem spells_of_isWordChar {c : Char} (h : isWordChar c = true) {more rest : List Char}
    (hmore : ∀ d ∈ more, isWordChar d = true) (hrest : ∀ d ∈ rest.head?, isWordChar d = false) :
    Spells rest (.ofWord (String.ofList (c :: more))) (String.ofList (c :: more)) (c :: more) := by
  have hword : IsWord (String.ofList (c :: more)) := by
    refine ⟨fun hnil => ?_, fun d hd => ?_⟩
    · cases String.ofList_eq_empty_iff.mp hnil
    · rw [String.toList_ofList] at hd
      rcases List.mem_cons.mp hd with rfl | hd
      · exact h
      · exact hmore d hd
  have hspells := Spells.word hword hrest
  rwa [String.toList_ofList] at hspells

theorem spells_of_isDigit {c : Char} (h : isDigit c = true) {more rest : List Char}
    (hmore : ∀ d ∈ more, isDigit d = true) (hrest : ∀ d ∈ rest.head?, isDigit d = false) :
    Spells rest .int (String.ofList (c :: more)) (c :: more) := by
  have hne : String.ofList (c :: more) ≠ "" := fun hnil => by
    cases String.ofList_eq_empty_iff.mp hnil
  have hrow : DigitRow (String.ofList (c :: more)) := by
    intro d hd
    rw [String.toList_ofList] at hd
    rcases List.mem_cons.mp hd with rfl | hd
    · exact h
    · exact hmore d hd
  have hspells := Spells.digits hne hrow hrest
  rwa [String.toList_ofList] at hspells

/-- A string is all that stands up to the next quote, or to the end of the text. -/
theorem exists_spells_of_quote (cs : List Char) :
    ∃ more rest, cs = more ++ rest ∧
      more.length = min ((cs.takeWhile (· != '"')).length + 1) cs.length ∧
      Spells rest .string (String.ofList (cs.takeWhile (· != '"'))) ('"' :: more) := by
  obtain ⟨rest, hcs, hbody, hrest⟩ := exists_run_append (· != '"') cs
  generalize cs.takeWhile (· != '"') = body at hcs hbody ⊢
  subst hcs
  have hquote : '"' ∉ (String.ofList body).toList := by
    rw [String.toList_ofList]
    exact fun hmem => by cases hbody _ hmem
  cases rest with
  | nil =>
      have hspells : Spells [] .string (String.ofList body) _ := .openString hquote rfl
      rw [String.toList_ofList] at hspells
      refine ⟨body, [], rfl, ?_, hspells⟩
      rw [List.append_nil]
      omega
  | cons d rest =>
      have hd : d = '"' := by simpa using hrest d rfl
      subst hd
      have hspells : Spells rest .string (String.ofList body) _ := .string hquote
      rw [String.toList_ofList] at hspells
      refine ⟨body ++ ['"'], rest, by rw [List.append_assoc]; rfl, ?_, hspells⟩
      simp only [List.length_append, List.length_cons, List.length_nil]
      omega

/-- What goes on with an operator makes another operator or opens a comment. -/
theorem pairSymbol_of_goesOnWith {c d : Char} (h : (symbol c).goesOnWith d = true) :
    pairSymbol? c d ≠ none ∨ c = '/' ∧ (d = '/' ∨ d = '*') := by
  unfold symbol at h
  split at h <;> first
    | cases h
    | (unfold TokenKind.goesOnWith at h
       split at h <;> first | decide | contradiction)

theorem spells_of_operator {c : Char} {cs : List Char} (hseparator : isSeparator c = false)
    (hquote : c ≠ '"') (hword : isWordChar c = false) (hdigit : isDigit c = false)
    (hcomment : c = '/' → cs.head? ≠ some '/' ∧ cs.head? ≠ some '*')
    (hpair : ∀ d ∈ cs.head?, pairSymbol? c d = none) :
    Spells cs (symbol c) (String.ofList [c]) [c] := by
  by_cases hsymbol : symbol c = .illegal
  · have hstart : startsLexeme c = false := by
      simp only [startsLexeme, Bool.or_eq_false_iff, beq_eq_false_iff_ne, List.contains_eq_mem,
        decide_eq_false_iff_not]
      exact ⟨⟨⟨⟨hseparator, hquote⟩, hword⟩, hdigit⟩, (symbol_eq_illegal_iff c).mp hsymbol⟩
    rw [hsymbol]
    refine .stray hstart ?_
    rintro (rfl | rfl) htwin <;> cases hpair _ htwin
  · obtain ⟨hoperator, hdisplay⟩ := display_symbol hsymbol
    have hgoes : ∀ d ∈ cs.head?, (symbol c).goesOnWith d = false := by
      intro d hd
      refine Bool.eq_false_iff.mpr fun h => ?_
      rcases pairSymbol_of_goesOnWith h with hne | ⟨rfl, rfl | rfl⟩
      · exact hne (hpair d hd)
      · exact (hcomment rfl).1 hd
      · exact (hcomment rfl).2 hd
    have hspells := Spells.operator hoperator hgoes
    rwa [hdisplay, String.toList_ofList] at hspells

theorem spells_of_pair {c d : Char} {kind : TokenKind} (h : pairSymbol? c d = some kind)
    {rest : List Char} : Spells rest kind (String.ofList [c, d]) [c, d] := by
  obtain ⟨hoperator, hdisplay, hgoes⟩ := display_pairSymbol h
  have hspells : Spells rest kind _ _ := .operator hoperator fun e _ => hgoes e
  rwa [hdisplay, String.toList_ofList] at hspells

theorem exists_pair_of_not_single {c : Char} {cs : List Char}
    (h : ¬∀ d ∈ cs.head?, pairSymbol? c d = none) :
    ∃ d rest kind, cs = d :: rest ∧ pairSymbol? c d = some kind := by
  cases cs with
  | nil => exact absurd (fun _ hd => nomatch hd) h
  | cons d rest =>
      cases hp : pairSymbol? c d with
      | none => exact absurd (fun e he => Option.mem_some_iff.mp he ▸ hp) h
      | some kind => exact ⟨d, rest, kind, rfl, hp⟩

/-- A lexeme that is no token is a blank or a comment. -/
theorem lexeme_ne_none {c : Char} {cs : List Char} {extra : Nat}
    (hseparator : isSeparator c = false) (hline : ¬(c = '/' ∧ cs.head? = some '/'))
    (hblock : ¬(c = '/' ∧ cs.head? = some '*')) : lexeme c cs ≠ ⟨none, extra⟩ := by
  intro h
  rw [lexeme, hseparator, if_neg Bool.false_ne_true, if_neg hline, if_neg hblock] at h
  unfold Lexeme.operator at h
  split at h
  · cases h
  split at h
  · cases h
  split at h
  · cases h
  split at h
  · split at h <;> cases h
  · cases h

/-- A token that is scanned at the head of a text has a lexeme that spells it. -/
theorem exists_spells_of_lexeme {c : Char} {cs : List Char} {kind : TokenKind} {literal : String}
    {extra : Nat} (h : lexeme c cs = ⟨some (kind, literal), extra⟩) :
    ∃ more rest, cs = more ++ rest ∧ more.length = extra ∧
      Spells rest kind literal (c :: more) := by
  by_cases hseparator : isSeparator c = true
  · rw [lexeme_of_isSeparator hseparator] at h
    cases h
  rw [Bool.not_eq_true] at hseparator
  by_cases hline : c = '/' ∧ cs.head? = some '/'
  · rw [lexeme, hseparator, if_neg Bool.false_ne_true, if_pos hline] at h
    cases h
  by_cases hblock : c = '/' ∧ cs.head? = some '*'
  · rw [lexeme, hseparator, if_neg Bool.false_ne_true, if_neg hline, if_pos hblock] at h
    cases h
  have hcomment : c = '/' → cs.head? ≠ some '/' ∧ cs.head? ≠ some '*' :=
    fun hc => ⟨fun hd => hline ⟨hc, hd⟩, fun hd => hblock ⟨hc, hd⟩⟩
  by_cases hquote : c = '"'
  · subst hquote
    rw [lexeme_quote] at h
    cases h
    exact exists_spells_of_quote cs
  by_cases hword : isWordChar c = true
  · obtain ⟨rest, hcs, hmore, hrest⟩ := exists_run_append isWordChar cs
    rw [lexeme_of_isWordChar hword] at h
    cases h
    exact ⟨_, rest, hcs, rfl, spells_of_isWordChar hword hmore hrest⟩
  by_cases hdigit : isDigit c = true
  · obtain ⟨rest, hcs, hmore, hrest⟩ := exists_run_append isDigit cs
    rw [lexeme_of_isDigit hdigit] at h
    cases h
    exact ⟨_, rest, hcs, rfl, spells_of_isDigit hdigit hmore hrest⟩
  rw [Bool.not_eq_true] at hword hdigit
  rw [lexeme_eq_operator hseparator hquote hword hdigit hcomment] at h
  by_cases hpair : ∀ d ∈ cs.head?, pairSymbol? c d = none
  · rw [operator_of_single hpair] at h
    cases h
    exact ⟨[], cs, rfl, rfl, spells_of_operator hseparator hquote hword hdigit hcomment hpair⟩
  · obtain ⟨d, rest, pair, rfl, hp⟩ := exists_pair_of_not_single hpair
    rw [operator_of_pair hp] at h
    cases h
    exact ⟨[d], rest, rfl, rfl, spells_of_pair hp⟩

/-! ### The tiles of a text -/

theorem IsTrivia.append {gap : List Char} (h : IsTrivia gap) {more : List Char}
    (hmore : IsTrivia more) : IsTrivia (gap ++ more) := by
  induction h with
  | nil => exact hmore
  | blank hc _ ih => exact .blank hc ih
  | line hbody _ ih =>
      rw [List.cons_append, List.cons_append, List.append_assoc, List.cons_append]
      exact .line hbody ih
  | block hbody _ ih =>
      simp only [List.cons_append, List.append_assoc]
      exact .block hbody ih

theorem IsTrivia.appendLast {gap : List Char} (h : IsTrivia gap) {more : List Char}
    (hmore : IsLastTrivia more) : IsLastTrivia (gap ++ more) := by
  cases hmore with
  | ended hmore => exact .ended (h.append hmore)
  | line hmore hbody =>
      rw [← List.append_assoc]
      exact .line (h.append hmore) hbody
  | block hmore hbody =>
      rw [← List.append_assoc]
      exact .block (h.append hmore) hbody

/-- Trivia in front of a tiled text belongs to its first tile. -/
theorem Tiled.trivia {gap : List Char} (h : IsTrivia gap) {position : Nat} {cs : List Char}
    {ts : List Token} (hcs : Tiled (position + gap.length) cs ts) :
    Tiled position (gap ++ cs) ts := by
  cases hcs with
  | last hlast =>
      have htiled : Tiled position (gap ++ cs) _ := .last (h.appendLast hlast)
      rwa [List.length_append, ← Nat.add_assoc] at htiled
  | token hmore hlexeme hrest =>
      rw [Nat.add_assoc position, ← List.length_append] at hrest ⊢
      rw [← List.append_assoc]
      exact .token (h.append hmore) hlexeme hrest

/-- A tiling of a text lists its tokens. -/
theorem Tiled.tokensFrom_eq {position : Nat} {cs : List Char} {ts : List Token}
    (h : Tiled position cs ts) : tokensFrom position cs = ts := by
  induction h with
  | last h => exact tokensFrom_lastTrivia h _
  | @token position gap lexeme rest kind literal ts hgap hlexeme hrest ih =>
      obtain ⟨c, more, rfl, hl⟩ := hlexeme.lexeme_eq
      have hposition : position + gap.length + 1 + more.length =
          position + gap.length + (c :: more).length := by
        rw [List.length_cons]
        omega
      rw [tokensFrom_trivia hgap, List.cons_append, tokensFrom_cons, hl]
      simp only [List.drop_left, hposition, ih]
      rfl

/-- Either a text goes on behind the trivia at its head, or it ends with a comment. -/
def HeadedByTrivia (cs : List Char) : Prop :=
  (∃ gap rest, cs = gap ++ rest ∧ gap ≠ [] ∧ IsTrivia gap) ∨ IsLastTrivia cs

theorem headedByTrivia_line (cs : List Char) : HeadedByTrivia ('/' :: '/' :: cs) := by
  obtain ⟨rest, hcs, hbody, hrest⟩ := exists_run_append (· != '\n') cs
  generalize cs.takeWhile (· != '\n') = body at hcs hbody
  subst hcs
  have hbreak : '\n' ∉ body := fun hmem => by cases hbody _ hmem
  cases rest with
  | nil =>
      rw [List.append_nil]
      exact .inr (.line .nil hbreak)
  | cons d rest =>
      have hd : d = '\n' := by simpa using hrest d rfl
      subst hd
      refine .inl ⟨'/' :: '/' :: (body ++ ['\n']), rest, ?_, List.cons_ne_nil _ _,
        .line hbreak .nil⟩
      rw [List.cons_append, List.cons_append, List.append_assoc, List.singleton_append]

theorem headedByTrivia_block (cs : List Char) : HeadedByTrivia ('/' :: '*' :: cs) := by
  cases hclosed : closesComment cs with
  | false => exact .inr (.block .nil hclosed)
  | true =>
      obtain ⟨body, rest, hbody, rfl⟩ := exists_of_closesComment hclosed
      refine .inl ⟨'/' :: '*' :: (body ++ ['*', '/']), rest, ?_, List.cons_ne_nil _ _,
        .block hbody .nil⟩
      rw [List.cons_append, List.cons_append, List.append_assoc]
      rfl

/-- What is no token at the head of a text is trivia, or it is the last comment of the text. -/
theorem headedByTrivia_of_lexeme {c : Char} {cs : List Char} {extra : Nat}
    (h : lexeme c cs = ⟨none, extra⟩) : HeadedByTrivia (c :: cs) := by
  by_cases hseparator : isSeparator c = true
  · exact .inl ⟨[c], cs, rfl, List.cons_ne_nil _ _, .blank hseparator .nil⟩
  by_cases hline : c = '/' ∧ cs.head? = some '/'
  · obtain ⟨rfl, hslash⟩ := hline
    obtain ⟨cs, rfl⟩ := List.head?_eq_some_iff.mp hslash
    exact headedByTrivia_line cs
  by_cases hblock : c = '/' ∧ cs.head? = some '*'
  · obtain ⟨rfl, hstar⟩ := hblock
    obtain ⟨cs, rfl⟩ := List.head?_eq_some_iff.mp hstar
    exact headedByTrivia_block cs
  rw [Bool.not_eq_true] at hseparator
  exact absurd h (lexeme_ne_none hseparator hline hblock)

/-- The tokens of a text tile it. -/
theorem tiled_tokensFrom (position : Nat) (cs : List Char) :
    Tiled position cs (tokensFrom position cs) := by
  induction hn : cs.length using Nat.strongRecOn generalizing position cs with
  | ind n ih =>
      subst hn
      cases cs with
      | nil =>
          rw [tokensFrom_nil]
          exact .last (.ended .nil)
      | cons c cs =>
          cases hl : lexeme c cs with
          | mk token? extra =>
              cases token? with
              | some token =>
                  obtain ⟨kind, literal⟩ := token
                  obtain ⟨more, rest, rfl, rfl, hspells⟩ := exists_spells_of_lexeme hl
                  have hlt : rest.length < (c :: (more ++ rest)).length := by
                    rw [List.length_cons, List.length_append]
                    omega
                  have hposition : position + ([] : List Char).length + (c :: more).length =
                      position + 1 + more.length := by
                    rw [List.length_nil, List.length_cons]
                    omega
                  have hrest := ih _ hlt (position + 1 + more.length) rest rfl
                  rw [tokensFrom_cons, hl]
                  simp only [List.drop_left]
                  rw [← hposition] at hrest ⊢
                  exact .token .nil hspells hrest
              | none =>
                  rcases headedByTrivia_of_lexeme hl with ⟨gap, rest, hcs, hne, hgap⟩ | hlast
                  · have hlt : rest.length < (c :: cs).length := by
                      have := List.length_pos_iff.mpr hne
                      rw [hcs, List.length_append]
                      omega
                    rw [hcs, tokensFrom_trivia hgap]
                    exact (ih _ hlt _ rest rfl).trivia hgap
                  · rw [tokensFrom_lastTrivia hlast]
                    exact .last hlast

/-- The tokens of a text are its one tiling. -/
theorem tokensFrom_eq_iff (position : Nat) (cs : List Char) (ts : List Token) :
    tokensFrom position cs = ts ↔ Tiled position cs ts :=
  ⟨fun h => h ▸ tiled_tokensFrom position cs, Tiled.tokensFrom_eq⟩

/-! ### What a tiling says of its tokens -/

theorem Spells.ne_nil {rest : List Char} {kind : TokenKind} {literal : String} {cs : List Char}
    (h : Spells rest kind literal cs) : cs ≠ [] := by
  obtain ⟨c, more, rfl, -⟩ := h.lexeme_eq
  exact List.cons_ne_nil c more

theorem Spells.kind_ne_eof {rest : List Char} {kind : TokenKind} {literal : String}
    {cs : List Char} (h : Spells rest kind literal cs) : kind ≠ .eof := by
  obtain ⟨c, more, rfl, hl⟩ := h.lexeme_eq
  exact kind_ne_eof_of_lexeme (congrArg Lexeme.token? hl)

theorem ofWord_ne_string (word : String) : TokenKind.ofWord word ≠ .string := by
  unfold TokenKind.ofWord
  split <;> exact TokenKind.noConfusion

/-- The literal of a token that is no string is its lexeme. -/
theorem Spells.eq_literal {rest : List Char} {kind : TokenKind} {literal : String}
    {cs : List Char} (h : Spells rest kind literal cs) (hkind : kind ≠ .string) :
    cs = literal.toList := by
  cases h with
  | word | digits | operator => rfl
  | string | openString => exact absurd rfl hkind
  | stray => exact (String.toList_ofList).symm

/-- The literal of a string is what stands between its quotes, or behind its only one. -/
theorem Spells.eq_quoted {rest : List Char} {kind : TokenKind} {literal : String}
    {cs : List Char} (h : Spells rest kind literal cs) (hkind : kind = .string) :
    '"' ∉ literal.toList ∧ (cs = '"' :: (literal.toList ++ ['"']) ∨
      cs = '"' :: literal.toList ∧ rest = []) := by
  cases h with
  | string hbody => exact ⟨hbody, .inl rfl⟩
  | openString hbody hrest => exact ⟨hbody, .inr ⟨rfl, hrest⟩⟩
  | word => exact absurd hkind (ofWord_ne_string _)
  | digits | stray => cases hkind
  | operator hoperator =>
      subst hkind
      cases hoperator

/-- The end token stands last, behind tokens in the order of their places, each with its lexeme. -/
theorem Tiled.split {position : Nat} {cs : List Char} {ts : List Token}
    (h : Tiled position cs ts) :
    ∃ us : List Token, ts = us ++ [⟨.eof, "", (position + cs.length : Nat)⟩] ∧
      us.Pairwise (fun t u => t.position < u.position) ∧
      ∀ t ∈ us, ∃ before lexeme behind : List Char, cs = before ++ (lexeme ++ behind) ∧
        t.position = (position + before.length : Nat) ∧ Spells behind t.kind t.literal lexeme := by
  induction h with
  | last => exact ⟨[], rfl, .nil, fun _ ht => nomatch ht⟩
  | @token position gap lexeme rest kind literal ts hgap hlexeme hrest ih =>
      obtain ⟨us, rfl, hordered, hplaces⟩ := ih
      have hpos := List.length_pos_iff.mpr hlexeme.ne_nil
      refine ⟨⟨kind, literal, (position + gap.length : Nat)⟩ :: us, ?_, ?_, ?_⟩
      · simp only [List.length_append, ← Nat.add_assoc, List.cons_append]
      · refine List.pairwise_cons.mpr ⟨fun t ht => ?_, hordered⟩
        obtain ⟨before, _, _, -, hplace, -⟩ := hplaces t ht
        rw [hplace]
        exact Int.ofNat_lt.mpr (by omega)
      · intro t ht
        rcases List.mem_cons.mp ht with rfl | ht
        · exact ⟨gap, lexeme, rest, rfl, rfl, hlexeme⟩
        · obtain ⟨before, word, behind, rfl, hplace, hspells⟩ := hplaces t ht
          refine ⟨gap ++ (lexeme ++ before), word, behind, ?_, ?_, hspells⟩
          · simp only [List.append_assoc]
          · rw [hplace, List.length_append, List.length_append]
            congr 1
            omega

/-- The tokens of a text are its one tiling: lexemes that could not be longer with trivia in
between, and the end token behind all. The tokens stand in the order of their places; the literal of
each is its lexeme, and that of a string what its quotes enclose. -/
theorem tokens_tile_text (text : String) :
    (∀ ts, tokenize text = ts ↔ Tiled 0 text.toList ts) ∧
      ∃ ts : List Token, tokenize text = ts ++ [⟨.eof, "", text.length⟩] ∧
        ts.Pairwise (fun t u => t.position < u.position) ∧
        ∀ t ∈ ts, t.kind ≠ .eof ∧ ∃ before lexeme behind : List Char,
          text.toList = before ++ (lexeme ++ behind) ∧
          t.position = before.length ∧ t.position < text.length ∧
          Spells behind t.kind t.literal lexeme ∧
          (t.kind ≠ .string → lexeme = t.literal.toList) ∧
          (t.kind = .string → '"' ∉ t.literal.toList ∧
            (lexeme = '"' :: (t.literal.toList ++ ['"']) ∨
              lexeme = '"' :: t.literal.toList ∧ behind = [])) := by
  obtain ⟨ts, hts, hordered, hplaces⟩ := (tiled_tokensFrom 0 text.toList).split
  rw [Nat.zero_add, String.length_toList] at hts
  refine ⟨tokensFrom_eq_iff 0 text.toList, ts, hts, hordered, fun t ht => ?_⟩
  obtain ⟨before, lexeme, behind, htext, hplace, hspells⟩ := hplaces t ht
  rw [Nat.zero_add] at hplace
  have hlt : before.length < text.length := by
    have hpos := List.length_pos_iff.mpr hspells.ne_nil
    rw [← String.length_toList, htext, List.length_append, List.length_append]
    omega
  refine ⟨hspells.kind_ne_eof, before, lexeme, behind, htext, hplace, ?_, hspells,
    hspells.eq_literal, hspells.eq_quoted⟩
  rw [hplace]
  exact Int.ofNat_lt.mpr hlt

-- Quotes in a comment and the opening of a comment in a string count for nothing.
example : tokenize "a/*\"*/\"/*" = [⟨.ident, "a", 0⟩, ⟨.string, "/*", 6⟩, ⟨.eof, "", 9⟩] := by
  cbv

end Scripting
