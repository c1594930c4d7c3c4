import Scripting.Proofs.Reading.Phrase

/-!
# What a phrase takes

A phrase takes tokens of the language only, none of them illegal, of an unknown kind or an end
token. How it begins and in front of what it ends is known of some phrases: an expression begins
with a token that opens an operand and ends where no operator binds tighter than the precedence
asked for.
-/

namespace Scripting

open Step Precedence

/-- All tokens of `ts` before `rest` have a property. -/
def Taken (p : Token → Prop) (ts rest : List Token) : Prop :=
  ∃ seg, ts = seg ++ rest ∧ ∀ t ∈ seg, p t

namespace Taken

variable {p : Token → Prop} {t : Token} {ts mid rest : List Token}

theorem none (ts : List Token) : Taken p ts ts :=
  ⟨[], rfl, fun _ ht => absurd ht List.not_mem_nil⟩

theorem cons (ht : p t) (h : Taken p ts rest) : Taken p (t :: ts) rest := by
  obtain ⟨seg, rfl, hseg⟩ := h
  exact ⟨t :: seg, rfl, List.forall_mem_cons.mpr ⟨ht, hseg⟩⟩

theorem one (ht : p t) : Taken p (t :: ts) ts :=
  (none ts).cons ht

theorem trans (h : Taken p ts mid) (hrest : Taken p mid rest) : Taken p ts rest := by
  obtain ⟨seg, rfl, hseg⟩ := h
  obtain ⟨seg', rfl, hseg'⟩ := hrest
  refine ⟨seg ++ seg', (List.append_assoc _ _ _).symm, fun t ht => ?_⟩
  rcases List.mem_append.mp ht with ht | ht
  · exact hseg t ht
  · exact hseg' t ht

end Taken

namespace TokenKind

/-- A kind that the language has, but for the end. -/
def isProper : TokenKind → Bool
  | .illegal | .eof | .other _ => false
  | _ => true

theorem ne_eof_of_isProper {kind : TokenKind} (h : kind.isProper = true) :
    (kind != .eof) = true := by
  cases kind <;> first | rfl | cases h

/-- A kind that opens an operand is none of those that do not. -/
theorem ne_of_opensOperand {kind other : TokenKind} (h : kind.opensOperand = true)
    (hother : other.opensOperand = false) : kind ≠ other := by
  intro heq
  rw [heq, hother] at h
  cases h

theorem isProper_of_isUnary {kind : TokenKind} (h : kind.isUnary = true) :
    kind.isProper = true := by
  cases kind <;> first | rfl | cases h

theorem opensOperand_of_isUnary {kind : TokenKind} (h : kind.isUnary = true) :
    kind.opensOperand = true ∧ kind ≠ .funcWord := by
  cases kind <;> first | exact absurd h Bool.false_ne_true | exact ⟨rfl, nofun⟩

theorem isProper_of_isBinary {kind : TokenKind} (h : kind.isBinary = true) :
    kind.isProper = true := by
  cases kind <;> first | rfl | cases h

theorem isProper_of_isLogical {kind : TokenKind} (h : kind.isLogical = true) :
    kind.isProper = true := by
  cases kind <;> first | rfl | cases h

theorem isProper_of_endsList {kind : TokenKind} (h : kind.endsList = true) :
    kind.isProper = true := by
  cases kind <;> first | rfl | cases h

theorem opensOperand_of_endsList {kind : TokenKind} (h : kind.endsList = true) :
    kind.opensOperand = false := by
  cases kind <;> first | rfl | cases h

end TokenKind

namespace Token

theorem isProper_of_leaf? {t : Token} {e : Expr} (h : t.leaf? = some e) :
    t.kind.isProper = true := by
  cases hk : t.kind <;> simp [leaf?, hk] at h <;> rfl

theorem opensOperand_of_leaf? {t : Token} {e : Expr} (h : t.leaf? = some e) :
    t.kind.opensOperand = true ∧ t.kind ≠ .funcWord := by
  cases hk : t.kind <;> simp [leaf?, hk] at h <;> exact ⟨rfl, nofun⟩

end Token

namespace Phrase

variable {phrase : Phrase} {ts rest : List Token}

/-- No token of a phrase is illegal, of an unknown kind or an end token. -/
theorem Spelled.taken (h : phrase.Spelled ts rest) :
    Taken (fun t => t.kind.isProper = true) ts rest := by
  have hkind : ∀ {t : Token} {kind : TokenKind}, t.kind = kind → kind.isProper = true →
      t.kind.isProper = true := fun ht hk => ht ▸ hk
  induction h with
  | expression _ _ ih1 ih2 => exact ih1.trans ih2
  | noOperator => exact .none _
  | operator _ _ _ ih1 ih2 => exact ih1.trans ih2
  | leaf h => exact .one (Token.isProper_of_leaf? h)
  | unary ht _ ih => exact ih.cons (TokenKind.isProper_of_isUnary ht)
  | grouped ht _ hu ih => exact (ih.trans (.one (hkind hu rfl))).cons (hkind ht rfl)
  | condition ht _ ih => exact ih.cons (hkind ht rfl)
  | function ht _ ih => exact ih.cons (hkind ht rfl)
  | print ht hu _ ih => exact (ih.cons (hkind hu rfl)).cons (hkind ht rfl)
  | array ht _ ih => exact ih.cons (hkind ht rfl)
  | map ht _ hu ih => exact (ih.trans (.one (hkind hu rfl))).cons (hkind ht rfl)
  | new ht hu hv _ ih => exact ((ih.cons (hkind hv rfl)).cons (hkind hu rfl)).cons (hkind ht rfl)
  | binary ht _ ih => exact ih.cons (TokenKind.isProper_of_isBinary ht)
  | logical ht _ ih => exact ih.cons (TokenKind.isProper_of_isLogical ht)
  | call ht _ ih => exact ih.cons (hkind ht rfl)
  | index ht _ hu ih => exact (ih.trans (.one (hkind hu rfl))).cons (hkind ht rfl)
  | property ht hu => exact (Taken.one (hkind hu rfl)).cons (hkind ht rfl)
  | assign ht _ _ ih => exact ih.cons (hkind ht rfl)
  | noExpressions ht => exact .one (TokenKind.isProper_of_endsList ht)
  | someExpressions _ _ ht ih1 ih2 =>
      exact (ih1.trans ih2).trans (.one (TokenKind.isProper_of_endsList ht))
  | noMoreExpressions => exact .none _
  | moreExpressions ht _ _ ih1 ih2 => exact (ih1.trans ih2).cons (hkind ht rfl)
  | noPairs => exact .none _
  | lastPair _ ht _ _ ih1 ih2 => exact ih1.trans (ih2.cons (hkind ht rfl))
  | morePairs _ ht _ hu _ ih1 ih2 ih3 =>
      exact ih1.trans ((ih2.trans (ih3.cons (hkind hu rfl))).cons (hkind ht rfl))
  | withoutElse ht _ hu hv _ _ ih1 ih2 =>
      exact (ih1.trans ((ih2.cons (hkind hv rfl)).cons (hkind hu rfl))).cons (hkind ht rfl)
  | withElse ht _ hu hv _ hw hx _ ih1 ih2 ih3 =>
      have halternative := ih2.trans ((ih3.cons (hkind hx rfl)).cons (hkind hw rfl))
      exact (ih1.trans ((halternative.cons (hkind hv rfl)).cons (hkind hu rfl))).cons (hkind ht rfl)
  | elseIf ht _ hu hv _ hw hx _ ih1 ih2 ih3 =>
      have hnested := ih2.trans ((ih3.cons (hkind hx rfl)).cons (hkind hw rfl))
      exact (ih1.trans ((hnested.cons (hkind hv rfl)).cons (hkind hu rfl))).cons (hkind ht rfl)
  | noParameters ht => exact .one (hkind ht rfl)
  | someParameters ht _ ih => exact ih.cons (hkind ht rfl)
  | noMoreParameters ht => exact .one (hkind ht rfl)
  | moreParameters ht hu _ ih => exact (ih.cons (hkind hu rfl)).cons (hkind ht rfl)
  | functionLiteral ht _ hu _ ih1 ih2 =>
      exact (ih1.trans (ih2.cons (hkind hu rfl))).cons (hkind ht rfl)
  | emptyBlock ht => exact .one (hkind ht rfl)
  | block _ _ ih1 ih2 => exact ih1.trans ih2
  | semicolon ht => exact .one (hkind ht rfl)
  | noSemicolon => exact .none _
  | expressionStatement _ _ ih1 ih2 => exact ih1.trans ih2
  | emptyStatement ht => exact .one (hkind ht rfl)
  | expr _ ih => exact ih
  | letIn ht hu hv _ _ ih1 ih2 =>
      exact (((ih1.trans ih2).cons (hkind hv rfl)).cons (hkind hu rfl)).cons (hkind ht rfl)
  | bareReturn ht _ _ ih => exact ih.cons (hkind ht rfl)
  | ret ht _ _ ih1 ih2 => exact (ih1.trans ih2).cons (hkind ht rfl)
  | namedFunction ht hu _ _ ih1 ih2 =>
      exact ((ih1.trans ih2).cons (hkind hu rfl)).cons (hkind ht rfl)
  | classDef ht _ ih => exact ih.cons (hkind ht rfl)
  | baseClass ht hu _ ih => exact (ih.cons (hkind hu rfl)).cons (hkind ht rfl)
  | subclass ht hu hv hw _ ih =>
      have hbody := (ih.cons (hkind hw rfl)).cons (hkind hv rfl)
      exact (hbody.cons (hkind hu rfl)).cons (hkind ht rfl)
  | noMethods ht => exact .one (hkind ht rfl)
  | strayMethods ht _ ih => exact ih.cons (hkind ht rfl)
  | methods ht _ _ ih1 ih2 => exact (ih1.trans ih2).cons (hkind ht rfl)
  | method ht hu hv _ _ ih1 ih2 =>
      exact (((ih1.trans ih2).cons (hkind hv rfl)).cons (hkind hu rfl)).cons (hkind ht rfl)
  | emptyProgram => exact .none _
  | program _ _ ih1 ih2 => exact ih1.trans ih2

theorem Spelled.length_le (h : phrase.Spelled ts rest) : rest.length ≤ ts.length := by
  obtain ⟨seg, rfl, -⟩ := h.taken
  rw [List.length_append]
  exact Nat.le_add_left _ _

theorem Spelled.length_lt_of_operand {e : Expr} (h : (operand e).Spelled ts rest) :
    rest.length < ts.length := by
  cases h with
  | leaf => exact Nat.lt_succ_self _
  | unary _ h => exact Nat.lt_succ_of_le h.length_le
  | grouped _ h => exact Nat.lt_succ_of_lt h.length_le
  | condition _ h => exact Nat.lt_succ_of_le h.length_le
  | function _ h => exact Nat.lt_succ_of_le h.length_le
  | print _ _ h => exact Nat.lt_succ_of_lt (Nat.lt_succ_of_le h.length_le)
  | array _ h => exact Nat.lt_succ_of_le h.length_le
  | map _ h => exact Nat.lt_succ_of_lt h.length_le
  | new _ _ _ h => exact Nat.lt_succ_of_lt (Nat.lt_succ_of_lt (Nat.lt_succ_of_le h.length_le))

theorem Spelled.length_lt_of_operation {left whole : Expr}
    (h : (operation left whole).Spelled ts rest) : rest.length < ts.length := by
  cases h with
  | binary _ h => exact Nat.lt_succ_of_le h.length_le
  | logical _ h => exact Nat.lt_succ_of_le h.length_le
  | call _ h => exact Nat.lt_succ_of_le h.length_le
  | index _ h => exact Nat.lt_succ_of_lt h.length_le
  | property => exact Nat.lt_succ_of_lt (Nat.lt_succ_self _)
  | assign _ _ h => exact Nat.lt_succ_of_le h.length_le

theorem Spelled.length_lt_of_expression {precedence : Nat} {e : Expr}
    (h : (Phrase.expression precedence e).Spelled ts rest) : rest.length < ts.length := by
  cases h with
  | expression hleft hwhole => exact Nat.lt_of_le_of_lt hwhole.length_le hleft.length_lt_of_operand

theorem Spelled.length_lt_of_statement {s : Option Stmt} (h : (statement s).Spelled ts rest) :
    rest.length < ts.length := by
  cases h with
  | emptyStatement => exact Nat.lt_succ_self _
  | expr h =>
      cases h with
      | expressionStatement h hend =>
          exact Nat.lt_of_le_of_lt hend.length_le h.length_lt_of_expression
  | letIn _ _ _ h hend =>
      have hlt := Nat.lt_of_le_of_lt hend.length_le h.length_lt_of_expression
      exact Nat.lt_succ_of_lt (Nat.lt_succ_of_lt (Nat.lt_succ_of_lt hlt))
  | bareReturn _ _ hend => exact Nat.lt_succ_of_le hend.length_le
  | ret _ h hend =>
      exact Nat.lt_succ_of_lt (Nat.lt_of_le_of_lt hend.length_le h.length_lt_of_expression)
  | namedFunction _ _ h hend =>
      exact Nat.lt_succ_of_lt (Nat.lt_succ_of_le (Nat.le_trans hend.length_le h.length_le))
  | classDef _ h => exact Nat.lt_succ_of_le h.length_le

/-- In front of what kind of token a phrase may end. -/
def EndsBefore (kind : TokenKind) : Phrase → Prop
  | expression precedence _ | operators precedence _ _ => kind.precedence ≤ precedence
  | program _ => kind = .eof
  | _ => True

theorem Spelled.endsBefore (h : phrase.Spelled ts rest) : phrase.EndsBefore (aheadKind rest) := by
  induction h with
  | expression _ _ _ ih => exact ih
  | noOperator h => exact h
  | operator _ _ _ _ ih => exact ih
  | emptyProgram h => exact h
  | program _ _ _ ih => exact ih
  | _ => exact trivial

/-- How a phrase begins: a function is told from the definition of one by its parenthesis. -/
def Begins (ts : List Token) : Phrase → Prop
  | expression _ _ | operand _ | expressionStatement _ =>
      (aheadKind ts).opensOperand = true ∧
        (aheadKind ts = .funcWord → aheadKind ts.tail = .lparen)
  | functionLiteral _ => aheadKind ts = .lparen
  | statement _ => aheadKind ts ≠ .rbrace ∧ aheadKind ts ≠ .eof
  | _ => True

/-- A token that opens an operand and is not the word of a function. -/
theorem begins_operand {kind : TokenKind} {ts : List Token} (hahead : aheadKind ts = kind)
    (hopens : kind.opensOperand = true) (hfunction : kind ≠ .funcWord) :
    (aheadKind ts).opensOperand = true ∧
      (aheadKind ts = .funcWord → aheadKind ts.tail = .lparen) := by
  subst hahead
  exact ⟨hopens, fun h => absurd h hfunction⟩

theorem Spelled.begins (h : phrase.Spelled ts rest) : phrase.Begins ts := by
  have hfirst : ∀ {t : Token} {us : List Token} {kind : TokenKind}, t.kind = kind →
      kind ≠ .rbrace → kind ≠ .eof →
        aheadKind (t :: us) ≠ .rbrace ∧ aheadKind (t :: us) ≠ .eof := by
    intro t us kind ht hbrace hend
    rw [aheadKind_cons, ht]
    exact ⟨hbrace, hend⟩
  induction h with
  | expression _ _ ih => exact ih
  | leaf h =>
      obtain ⟨hopens, hfunction⟩ := Token.opensOperand_of_leaf? h
      exact begins_operand rfl hopens hfunction
  | unary ht =>
      obtain ⟨hopens, hfunction⟩ := TokenKind.opensOperand_of_isUnary ht
      exact begins_operand rfl hopens hfunction
  | grouped ht => exact begins_operand ht rfl nofun
  | condition ht => exact begins_operand ht rfl nofun
  | function ht _ ih => exact ⟨by rw [aheadKind_cons, ht]; rfl, fun _ => ih⟩
  | print ht => exact begins_operand ht rfl nofun
  | array ht => exact begins_operand ht rfl nofun
  | map ht => exact begins_operand ht rfl nofun
  | new ht => exact begins_operand ht rfl nofun
  | functionLiteral ht => exact ht
  | expressionStatement _ _ ih => exact ih
  | emptyStatement ht => exact hfirst ht nofun nofun
  | expr _ ih =>
      obtain ⟨hopens, -⟩ := ih
      exact ⟨TokenKind.ne_of_opensOperand hopens rfl, TokenKind.ne_of_opensOperand hopens rfl⟩
  | letIn ht => exact hfirst ht nofun nofun
  | bareReturn ht => exact hfirst ht nofun nofun
  | ret ht => exact hfirst ht nofun nofun
  | namedFunction ht => exact hfirst ht nofun nofun
  | classDef ht => exact hfirst ht nofun nofun
  | _ => exact trivial

end Phrase

end Scripting
