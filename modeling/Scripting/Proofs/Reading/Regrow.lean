import Scripting.Proofs.Reading.Extent

/-!
# What may follow a phrase

Where a phrase ends depends on the token behind it and on nothing further on. So the tokens behind a
phrase can be given up for others, as long as those begin alike. A phrase that ends with a bracket
of its own can be followed by anything, and an expression that ends with the tokens by whatever is
neither an operator nor an `else`.
-/

namespace Scripting

open Step Precedence

/-- `ts'` is `ts` with `rest'` in place of `rest`, with which `ts` ends. -/
inductive Regrown (rest rest' : List Token) : List Token → List Token → Prop where
  | rest : Regrown rest rest' rest rest'
  | cons {ts ts' : List Token} (t : Token) (h : Regrown rest rest' ts ts') :
      Regrown rest rest' (t :: ts) (t :: ts')

/-- Tokens that begin like others or, where those are at their end, with what ends an expression. -/
def BeginsLike (ts ts' : List Token) : Prop :=
  aheadKind ts' = aheadKind ts ∨
    aheadKind ts = .eof ∧ (aheadKind ts').precedence = lowest ∧ aheadKind ts' ≠ .elseWord

namespace Regrown

variable {ts ts' mid mid' rest rest' : List Token}

theorem trans (h : Regrown mid mid' ts ts') (h' : Regrown rest rest' mid mid') :
    Regrown rest rest' ts ts' := by
  induction h with
  | rest => exact h'
  | cons t _ ih => exact .cons t ih

theorem beginsLike (h : Regrown rest rest' ts ts') (hrest : BeginsLike rest rest') :
    BeginsLike ts ts' := by
  cases h with
  | rest => exact hrest
  | cons t _ => exact .inl rfl

theorem aheadKind_eq (h : Regrown rest rest' ts ts') (hrest : aheadKind rest' = aheadKind rest) :
    aheadKind ts' = aheadKind ts := by
  cases h with
  | rest => exact hrest
  | cons t _ => rfl

/-- The first of the tokens stays where it stands in front of what is replaced. -/
theorem of_cons {t : Token} (h : Regrown rest rest' (t :: ts) ts')
    (hlt : rest.length < (t :: ts).length) :
    ∃ us, ts' = t :: us ∧ Regrown rest rest' ts us := by
  cases h with
  | rest => exact absurd hlt (Nat.lt_irrefl _)
  | @cons _ us _ h => exact ⟨us, rfl, h⟩

theorem aheadKind_eq_of_length_lt (h : Regrown rest rest' ts ts') (hlt : rest.length < ts.length) :
    aheadKind ts' = aheadKind ts := by
  cases h with
  | rest => exact absurd hlt (Nat.lt_irrefl _)
  | cons t _ => rfl

theorem of_nil {rest' ts ts' : List Token} (h : Regrown [] rest' ts ts') :
    ts' = ts ++ rest' := by
  induction h with
  | rest => rfl
  | cons t _ ih => rw [ih, List.cons_append]

/-- What replaces the end of the tokens stands where the one end token stood. -/
theorem of_end {rest rest' ts ts' : List Token} {e : Token}
    (h : Regrown rest rest' (ts ++ [e]) ts') (hts : ∀ t ∈ ts, t.kind ≠ .eof)
    (hrest : aheadKind rest = .eof) (hne : rest ≠ []) : ts' = ts ++ rest' := by
  induction ts generalizing ts' with
  | nil =>
      cases h with
      | rest => rfl
      | cons _ h =>
          cases h with
          | rest => exact absurd rfl hne
  | cons t ts ih =>
      cases h with
      | rest => exact absurd hrest (hts t List.mem_cons_self)
      | cons _ h => rw [ih h fun u hu => hts u (List.mem_cons_of_mem t hu), List.cons_append]

end Regrown

namespace BeginsLike

variable {ts ts' : List Token}

theorem of_end (hts : aheadKind ts = .eof) {t : Token} (hlowest : t.kind.precedence = lowest)
    (helse : t.kind ≠ .elseWord) (us : List Token) : BeginsLike ts (t :: us) :=
  .inr ⟨hts, hlowest, helse⟩

theorem precedence_le (h : BeginsLike ts ts') {precedence : Nat}
    (hts : (aheadKind ts).precedence ≤ precedence) : (aheadKind ts').precedence ≤ precedence := by
  rcases h with h | ⟨-, hlowest, -⟩
  · rwa [h]
  · rw [hlowest]
    exact Nat.le_trans (TokenKind.lowest_le_precedence _) hts

theorem ne_elseWord (h : BeginsLike ts ts') (hts : aheadKind ts ≠ .elseWord) :
    aheadKind ts' ≠ .elseWord := by
  rcases h with h | ⟨-, -, hne⟩
  · rwa [h]
  · exact hne

end BeginsLike

namespace Phrase

/-- What may stand behind a phrase in place of what does. Behind a phrase that ends with a bracket
this is anything, behind an expression or its operators it begins alike or ends the expression, and
behind a phrase that looks for a token of a certain kind it begins alike. -/
def LetsFollow (rest rest' : List Token) : Phrase → Prop
  | expressions _ _ | parameters _ | moreParameters _ | functionLiteral _ | block _
  | classDefinition _ | methods _ => True
  | expression _ _ | operators _ _ _ | operand _ | operation _ _ | conditional _ =>
      BeginsLike rest rest'
  | moreExpressions _ | pairs _ | semicolon | expressionStatement _ | statement _ | method _ _
  | program _ => aheadKind rest' = aheadKind rest

theorem Spelled.length_lt_of_block {b : Block} {ts rest : List Token}
    (h : (Phrase.block b).Spelled ts rest) : rest.length < ts.length := by
  cases h with
  | emptyBlock => exact Nat.lt_succ_self _
  | block hs hb => exact Nat.lt_of_le_of_lt hb.length_le hs.length_lt_of_statement

theorem Spelled.length_lt_of_methods {ms : List (String × FunctionLiteral)} {ts rest : List Token}
    (h : (Phrase.methods ms).Spelled ts rest) : rest.length < ts.length := by
  cases h with
  | noMethods => exact Nat.lt_succ_self _
  | strayMethods _ h => exact Nat.lt_succ_of_le h.length_le
  | methods _ h hms => exact Nat.lt_succ_of_le (Nat.le_trans hms.length_le h.length_le)

/-- A phrase is spelled by the same tokens in front of others that may follow it. -/
theorem Spelled.regrow {phrase : Phrase} {ts rest : List Token} (h : phrase.Spelled ts rest) :
    ∀ rest', phrase.LetsFollow rest rest' →
      ∃ ts', Regrown rest rest' ts ts' ∧ phrase.Spelled ts' rest' := by
  -- From the last part of a phrase to its first: each part ends in front of the part behind it.
  induction h with
  | expression _ _ ih1 ih2 =>
      intro rest' hrest
      obtain ⟨mid', hmid, h2⟩ := ih2 rest' hrest
      obtain ⟨ts', hts, h1⟩ := ih1 mid' (hmid.beginsLike hrest)
      exact ⟨ts', hts.trans hmid, .expression h1 h2⟩
  | noOperator h =>
      intro rest' hrest
      exact ⟨rest', .rest, .noOperator (BeginsLike.precedence_le hrest h)⟩
  | operator h hjoined _ ih1 ih2 =>
      intro rest' hrest
      obtain ⟨mid', hmid, h2⟩ := ih2 rest' hrest
      obtain ⟨ts', hts, h1⟩ := ih1 mid' (hmid.beginsLike hrest)
      obtain ⟨us, rfl, hus⟩ := hts.of_cons hjoined.length_lt_of_operation
      exact ⟨_, (hus.cons _).trans hmid, .operator h h1 h2⟩
  | leaf h => exact fun rest' _ => ⟨_, .cons _ .rest, .leaf h⟩
  | unary ht _ ih =>
      intro rest' hrest
      obtain ⟨ts', hts, h1⟩ := ih rest' hrest
      exact ⟨_, hts.cons _, .unary ht h1⟩
  | grouped ht _ hu ih =>
      intro rest' hrest
      obtain ⟨ts', hts, h1⟩ := ih (_ :: rest') (.inl rfl)
      exact ⟨_, .cons _ (hts.trans (.cons _ .rest)), .grouped ht h1 hu⟩
  | condition ht _ ih =>
      intro rest' hrest
      obtain ⟨ts', hts, h1⟩ := ih rest' hrest
      exact ⟨_, hts.cons _, .condition ht h1⟩
  | function ht _ ih =>
      intro rest' _
      obtain ⟨ts', hts, h1⟩ := ih rest' trivial
      exact ⟨_, hts.cons _, .function ht h1⟩
  | print ht hu _ ih =>
      intro rest' _
      obtain ⟨ts', hts, h1⟩ := ih rest' trivial
      exact ⟨_, (hts.cons _).cons _, .print ht hu h1⟩
  | array ht _ ih =>
      intro rest' _
      obtain ⟨ts', hts, h1⟩ := ih rest' trivial
      exact ⟨_, hts.cons _, .array ht h1⟩
  | map ht _ hu ih =>
      intro rest' hrest
      obtain ⟨ts', hts, h1⟩ := ih (_ :: rest') rfl
      exact ⟨_, .cons _ (hts.trans (.cons _ .rest)), .map ht h1 hu⟩
  | new ht hu hv _ ih =>
      intro rest' _
      obtain ⟨ts', hts, h1⟩ := ih rest' trivial
      exact ⟨_, ((hts.cons _).cons _).cons _, .new ht hu hv h1⟩
  | binary ht _ ih =>
      intro rest' hrest
      obtain ⟨ts', hts, h1⟩ := ih rest' hrest
      exact ⟨_, hts.cons _, .binary ht h1⟩
  | logical ht _ ih =>
      intro rest' hrest
      obtain ⟨ts', hts, h1⟩ := ih rest' hrest
      exact ⟨_, hts.cons _, .logical ht h1⟩
  | call ht _ ih =>
      intro rest' _
      obtain ⟨ts', hts, h1⟩ := ih rest' trivial
      exact ⟨_, hts.cons _, .call ht h1⟩
  | index ht _ hu ih =>
      intro rest' hrest
      obtain ⟨ts', hts, h1⟩ := ih (_ :: rest') (.inl rfl)
      exact ⟨_, .cons _ (hts.trans (.cons _ .rest)), .index ht h1 hu⟩
  | property ht hu => exact fun rest' _ => ⟨_, .cons _ (.cons _ .rest), .property ht hu⟩
  | assign ht hleft _ ih =>
      intro rest' hrest
      obtain ⟨ts', hts, h1⟩ := ih rest' hrest
      exact ⟨_, hts.cons _, .assign ht hleft h1⟩
  | noExpressions ht => exact fun rest' _ => ⟨_, .cons _ .rest, .noExpressions ht⟩
  | someExpressions _ _ ht ih1 ih2 =>
      intro rest' _
      obtain ⟨mid', hmid, h2⟩ := ih2 (_ :: rest') rfl
      obtain ⟨ts', hts, h1⟩ := ih1 mid' (.inl (hmid.aheadKind_eq rfl))
      exact ⟨ts', (hts.trans hmid).trans (.cons _ .rest), .someExpressions h1 h2 ht⟩
  | noMoreExpressions h =>
      intro rest' hrest
      have hahead : aheadKind rest' = _ := hrest
      exact ⟨rest', .rest, .noMoreExpressions (hahead ▸ h)⟩
  | moreExpressions ht _ _ ih1 ih2 =>
      intro rest' hrest
      obtain ⟨mid', hmid, h2⟩ := ih2 rest' hrest
      obtain ⟨ts', hts, h1⟩ := ih1 mid' (.inl (hmid.aheadKind_eq hrest))
      exact ⟨_, (hts.trans hmid).cons _, .moreExpressions ht h1 h2⟩
  | noPairs h =>
      intro rest' hrest
      have hahead : aheadKind rest' = _ := hrest
      exact ⟨rest', .rest, .noPairs (hahead ▸ h)⟩
  | lastPair _ ht _ hbrace ih1 ih2 =>
      intro rest' hrest
      have hahead : aheadKind rest' = _ := hrest
      obtain ⟨mid', hmid, h2⟩ := ih2 rest' (.inl hrest)
      obtain ⟨ts', hts, h1⟩ := ih1 (_ :: mid') (.inl rfl)
      exact ⟨ts', hts.trans (hmid.cons _), .lastPair h1 ht h2 (hahead.trans hbrace)⟩
  | morePairs _ ht _ hu _ ih1 ih2 ih3 =>
      intro rest' hrest
      obtain ⟨us', hus, h3⟩ := ih3 rest' hrest
      obtain ⟨mid', hmid, h2⟩ := ih2 (_ :: us') (.inl rfl)
      obtain ⟨ts', hts, h1⟩ := ih1 (_ :: mid') (.inl rfl)
      have hvalue := hmid.trans (hus.cons _)
      exact ⟨ts', hts.trans (hvalue.cons _), .morePairs h1 ht h2 hu h3⟩
  | withoutElse ht _ hu hv _ helse ih1 ih2 =>
      intro rest' hrest
      obtain ⟨mid', hmid, h2⟩ := ih2 rest' trivial
      obtain ⟨ts', hts, h1⟩ := ih1 (_ :: _ :: mid') (.inl rfl)
      exact ⟨_, (hts.trans ((hmid.cons _).cons _)).cons _,
        .withoutElse ht h1 hu hv h2 (BeginsLike.ne_elseWord hrest helse)⟩
  | withElse ht _ hu hv _ hw hx _ ih1 ih2 ih3 =>
      intro rest' _
      obtain ⟨us', hus, h3⟩ := ih3 rest' trivial
      obtain ⟨mid', hmid, h2⟩ := ih2 (_ :: _ :: us') trivial
      obtain ⟨ts', hts, h1⟩ := ih1 (_ :: _ :: mid') (.inl rfl)
      have hblock := hmid.trans ((hus.cons _).cons _)
      exact ⟨_, (hts.trans ((hblock.cons _).cons _)).cons _, .withElse ht h1 hu hv h2 hw hx h3⟩
  | elseIf ht _ hu hv _ hw hx _ ih1 ih2 ih3 =>
      intro rest' hrest
      obtain ⟨us', hus, h3⟩ := ih3 rest' hrest
      obtain ⟨mid', hmid, h2⟩ := ih2 (_ :: _ :: us') trivial
      obtain ⟨ts', hts, h1⟩ := ih1 (_ :: _ :: mid') (.inl rfl)
      have hblock := hmid.trans ((hus.cons _).cons _)
      exact ⟨_, (hts.trans ((hblock.cons _).cons _)).cons _, .elseIf ht h1 hu hv h2 hw hx h3⟩
  | noParameters ht => exact fun rest' _ => ⟨_, .cons _ .rest, .noParameters ht⟩
  | someParameters ht _ ih =>
      intro rest' _
      obtain ⟨ts', hts, h1⟩ := ih rest' trivial
      exact ⟨_, hts.cons _, .someParameters ht h1⟩
  | noMoreParameters ht => exact fun rest' _ => ⟨_, .cons _ .rest, .noMoreParameters ht⟩
  | moreParameters ht hu _ ih =>
      intro rest' _
      obtain ⟨ts', hts, h1⟩ := ih rest' trivial
      exact ⟨_, (hts.cons _).cons _, .moreParameters ht hu h1⟩
  | functionLiteral ht _ hu _ ih1 ih2 =>
      intro rest' _
      obtain ⟨mid', hmid, h2⟩ := ih2 rest' trivial
      obtain ⟨ts', hts, h1⟩ := ih1 (_ :: mid') trivial
      exact ⟨_, (hts.trans (hmid.cons _)).cons _, .functionLiteral ht h1 hu h2⟩
  | emptyBlock ht => exact fun rest' _ => ⟨_, .cons _ .rest, .emptyBlock ht⟩
  | block _ hb ih1 ih2 =>
      intro rest' _
      obtain ⟨mid', hmid, h2⟩ := ih2 rest' trivial
      obtain ⟨ts', hts, h1⟩ := ih1 mid' (hmid.aheadKind_eq_of_length_lt hb.length_lt_of_block)
      exact ⟨ts', hts.trans hmid, .block h1 h2⟩
  | semicolon ht => exact fun rest' _ => ⟨_, .cons _ .rest, .semicolon ht⟩
  | noSemicolon h =>
      intro rest' hrest
      have hahead : aheadKind rest' = _ := hrest
      exact ⟨rest', .rest, .noSemicolon (hahead ▸ h)⟩
  | expressionStatement _ _ ih1 ih2 =>
      intro rest' hrest
      obtain ⟨mid', hmid, h2⟩ := ih2 rest' hrest
      obtain ⟨ts', hts, h1⟩ := ih1 mid' (.inl (hmid.aheadKind_eq hrest))
      exact ⟨ts', hts.trans hmid, .expressionStatement h1 h2⟩
  | emptyStatement ht => exact fun rest' _ => ⟨_, .cons _ .rest, .emptyStatement ht⟩
  | expr _ ih =>
      intro rest' hrest
      obtain ⟨ts', hts, h1⟩ := ih rest' hrest
      exact ⟨ts', hts, .expr h1⟩
  | letIn ht hu hv _ _ ih1 ih2 =>
      intro rest' hrest
      obtain ⟨mid', hmid, h2⟩ := ih2 rest' hrest
      obtain ⟨ts', hts, h1⟩ := ih1 mid' (.inl (hmid.aheadKind_eq hrest))
      exact ⟨_, (((hts.trans hmid).cons _).cons _).cons _, .letIn ht hu hv h1 h2⟩
  | bareReturn ht hts _ ih =>
      intro rest' hrest
      obtain ⟨ts', hts', h1⟩ := ih rest' hrest
      have hahead := hts'.aheadKind_eq hrest
      exact ⟨_, hts'.cons _, .bareReturn ht (hahead ▸ hts) h1⟩
  | ret ht _ _ ih1 ih2 =>
      intro rest' hrest
      obtain ⟨mid', hmid, h2⟩ := ih2 rest' hrest
      obtain ⟨ts', hts, h1⟩ := ih1 mid' (.inl (hmid.aheadKind_eq hrest))
      exact ⟨_, (hts.trans hmid).cons _, .ret ht h1 h2⟩
  | namedFunction ht hu _ _ ih1 ih2 =>
      intro rest' hrest
      obtain ⟨mid', hmid, h2⟩ := ih2 rest' hrest
      obtain ⟨ts', hts, h1⟩ := ih1 mid' trivial
      exact ⟨_, ((hts.trans hmid).cons _).cons _, .namedFunction ht hu h1 h2⟩
  | classDef ht _ ih =>
      intro rest' _
      obtain ⟨ts', hts, h1⟩ := ih rest' trivial
      exact ⟨_, hts.cons _, .classDef ht h1⟩
  | baseClass ht hu _ ih =>
      intro rest' _
      obtain ⟨ts', hts, h1⟩ := ih rest' trivial
      exact ⟨_, (hts.cons _).cons _, .baseClass ht hu h1⟩
  | subclass ht hu hv hw _ ih =>
      intro rest' _
      obtain ⟨ts', hts, h1⟩ := ih rest' trivial
      exact ⟨_, (((hts.cons _).cons _).cons _).cons _, .subclass ht hu hv hw h1⟩
  | noMethods ht => exact fun rest' _ => ⟨_, .cons _ .rest, .noMethods ht⟩
  | strayMethods ht _ ih =>
      intro rest' _
      obtain ⟨ts', hts, h1⟩ := ih rest' trivial
      exact ⟨_, hts.cons _, .strayMethods ht h1⟩
  | methods ht _ hms ih1 ih2 =>
      intro rest' _
      obtain ⟨mid', hmid, h2⟩ := ih2 rest' trivial
      obtain ⟨ts', hts, h1⟩ := ih1 mid' (hmid.aheadKind_eq_of_length_lt hms.length_lt_of_methods)
      exact ⟨_, (hts.trans hmid).cons _, .methods ht h1 h2⟩
  | method ht hu hv _ _ ih1 ih2 =>
      intro rest' hrest
      obtain ⟨mid', hmid, h2⟩ := ih2 rest' hrest
      obtain ⟨ts', hts, h1⟩ := ih1 mid' trivial
      exact ⟨_, (((hts.trans hmid).cons _).cons _).cons _, .method ht hu hv h1 h2⟩
  | emptyProgram h =>
      intro rest' hrest
      have hahead : aheadKind rest' = _ := hrest
      exact ⟨rest', .rest, .emptyProgram (hahead.trans h)⟩
  | program _ _ ih1 ih2 =>
      intro rest' hrest
      obtain ⟨mid', hmid, h2⟩ := ih2 rest' hrest
      obtain ⟨ts', hts, h1⟩ := ih1 mid' (hmid.aheadKind_eq hrest)
      exact ⟨ts', hts.trans hmid, .program h1 h2⟩

end Phrase

end Scripting
