import Scripting.Proofs.Token.Join
import Scripting.Proofs.Token.Nested
import Scripting.Proofs.Reading.Extent
import Scripting.Proofs.Reading.Soundness

/-!
# Brackets of a program

Every phrase takes nested brackets, but for those phrases that stand behind an opening bracket and
take the closing one with them. Nothing else takes a bracket: what is skipped between statements and
between methods are semicolons.
-/

namespace Scripting

open Step Precedence

theorem TokenKind.depthChange_of_isUnary {kind : TokenKind} (h : kind.isUnary = true) :
    kind.depthChange = 0 := by
  cases kind <;> first | rfl | cases h

theorem TokenKind.depthChange_of_isBinary {kind : TokenKind} (h : kind.isBinary = true) :
    kind.depthChange = 0 := by
  cases kind <;> first | rfl | cases h

theorem TokenKind.depthChange_of_isLogical {kind : TokenKind} (h : kind.isLogical = true) :
    kind.depthChange = 0 := by
  cases kind <;> first | rfl | cases h

theorem TokenKind.depthChange_of_endsList {kind : TokenKind} (h : kind.endsList = true) :
    kind.depthChange = -1 := by
  cases kind <;> first | rfl | cases h

theorem Token.depthChange_of_leaf? {t : Token} {e : Expr} (h : t.leaf? = some e) :
    t.kind.depthChange = 0 := by
  cases hk : t.kind <;> simp [leaf?, hk] at h <;> rfl

namespace Closes

variable {awaited : List TokenKind} {t : Token} {ts : List Token} {kind close : TokenKind}

/-- A token of a kind that is no bracket. -/
theorem plainKind (ht : t.kind = kind) (hkind : kind.depthChange = 0) (h : Closes awaited ts) :
    Closes awaited (t :: ts) :=
  .plain (ht ▸ hkind) h

/-- A token of a kind that opens a bracket. -/
theorem openingKind (ht : t.kind = kind) (hkind : kind.closer? = some close)
    (h : Closes (close :: awaited) ts) : Closes awaited (t :: ts) :=
  .opening (ht ▸ hkind) h

/-- A token of a kind that closes the innermost bracket. -/
theorem closingKind (ht : t.kind = kind) (hkind : kind.depthChange = -1) (h : Closes awaited ts) :
    Closes (kind :: awaited) (t :: ts) := by
  subst ht
  exact .closing hkind h

end Closes

namespace Phrase

/-- The bracket that stands open in front of a phrase that takes the closing one. -/
def awaited : Phrase → List TokenKind
  | expressions close _ => [close]
  | parameters _ | moreParameters _ => [.rparen]
  | block _ | methods _ => [.rbrace]
  | _ => []

/-- Where the tokens behind a phrase close some brackets, those of the phrase and these together
close the same brackets and the one that the phrase closes. -/
theorem Spelled.closes {phrase : Phrase} {ts rest : List Token} (h : phrase.Spelled ts rest) :
    ∀ {kinds : List TokenKind}, Closes kinds rest → Closes (phrase.awaited ++ kinds) ts := by
  -- From the last part of a phrase to its first: each part stands in front of the part behind it.
  induction h with
  | expression _ _ ih1 ih2 => exact fun h => ih1 (ih2 h)
  | noOperator => exact id
  | operator _ _ _ ih1 ih2 => exact fun h => ih1 (ih2 h)
  | leaf ht => exact .plain (Token.depthChange_of_leaf? ht)
  | unary ht _ ih => exact fun h => .plain (TokenKind.depthChange_of_isUnary ht) (ih h)
  | grouped ht _ hu ih => exact fun h => .openingKind ht rfl (ih (.closingKind hu rfl h))
  | condition ht _ ih => exact fun h => .plainKind ht rfl (ih h)
  | function ht _ ih => exact fun h => .plainKind ht rfl (ih h)
  | print ht hu _ ih => exact fun h => .plainKind ht rfl (.openingKind hu rfl (ih h))
  | array ht _ ih => exact fun h => .openingKind ht rfl (ih h)
  | map ht _ hu ih => exact fun h => .openingKind ht rfl (ih (.closingKind hu rfl h))
  | new ht hu hv _ ih =>
      exact fun h => .plainKind ht rfl (.plainKind hu rfl (.openingKind hv rfl (ih h)))
  | binary ht _ ih => exact fun h => .plain (TokenKind.depthChange_of_isBinary ht) (ih h)
  | logical ht _ ih => exact fun h => .plain (TokenKind.depthChange_of_isLogical ht) (ih h)
  | call ht _ ih => exact fun h => .openingKind ht rfl (ih h)
  | index ht _ hu ih => exact fun h => .openingKind ht rfl (ih (.closingKind hu rfl h))
  | property ht hu => exact fun h => .plainKind ht rfl (.plainKind hu rfl h)
  | assign ht _ _ ih => exact fun h => .plainKind ht rfl (ih h)
  | noExpressions ht => exact .closing (TokenKind.depthChange_of_endsList ht)
  | someExpressions _ _ ht ih1 ih2 =>
      exact fun h => ih1 (ih2 (.closing (TokenKind.depthChange_of_endsList ht) h))
  | noMoreExpressions => exact id
  | moreExpressions ht _ _ ih1 ih2 => exact fun h => .plainKind ht rfl (ih1 (ih2 h))
  | noPairs => exact id
  | lastPair _ ht _ _ ih1 ih2 => exact fun h => ih1 (.plainKind ht rfl (ih2 h))
  | morePairs _ ht _ hu _ ih1 ih2 ih3 =>
      exact fun h => ih1 (.plainKind ht rfl (ih2 (.plainKind hu rfl (ih3 h))))
  | withoutElse ht _ hu hv _ _ ih1 ih2 =>
      exact fun h => .openingKind ht rfl (ih1 (.closingKind hu rfl (.openingKind hv rfl (ih2 h))))
  | withElse ht _ hu hv _ hw hx _ ih1 ih2 ih3 =>
      intro kinds h
      have helse := Closes.plainKind hw rfl (.openingKind hx rfl (ih3 h))
      exact .openingKind ht rfl (ih1 (.closingKind hu rfl (.openingKind hv rfl (ih2 helse))))
  | elseIf ht _ hu hv _ hw hx _ ih1 ih2 ih3 =>
      intro kinds h
      have helse := Closes.plainKind hw rfl (.plainKind hx rfl (ih3 h))
      exact .openingKind ht rfl (ih1 (.closingKind hu rfl (.openingKind hv rfl (ih2 helse))))
  | noParameters ht => exact .closingKind ht rfl
  | someParameters ht _ ih => exact fun h => .plainKind ht rfl (ih h)
  | noMoreParameters ht => exact .closingKind ht rfl
  | moreParameters ht hu _ ih => exact fun h => .plainKind ht rfl (.plainKind hu rfl (ih h))
  | functionLiteral ht _ hu _ ih1 ih2 =>
      exact fun h => .openingKind ht rfl (ih1 (.openingKind hu rfl (ih2 h)))
  | emptyBlock ht => exact .closingKind ht rfl
  | block _ _ ih1 ih2 => exact fun h => ih1 (ih2 h)
  | semicolon ht => exact .plainKind ht rfl
  | noSemicolon => exact id
  | expressionStatement _ _ ih1 ih2 => exact fun h => ih1 (ih2 h)
  | emptyStatement ht => exact .plainKind ht rfl
  | expr _ ih => exact ih
  | letIn ht hu hv _ _ ih1 ih2 =>
      exact fun h => .plainKind ht rfl (.plainKind hu rfl (.plainKind hv rfl (ih1 (ih2 h))))
  | bareReturn ht _ _ ih => exact fun h => .plainKind ht rfl (ih h)
  | ret ht _ _ ih1 ih2 => exact fun h => .plainKind ht rfl (ih1 (ih2 h))
  | namedFunction ht hu _ _ ih1 ih2 =>
      exact fun h => .plainKind ht rfl (.plainKind hu rfl (ih1 (ih2 h)))
  | classDef ht _ ih => exact fun h => .plainKind ht rfl (ih h)
  | baseClass ht hu _ ih => exact fun h => .plainKind ht rfl (.openingKind hu rfl (ih h))
  | subclass ht hu hv hw _ ih =>
      intro kinds h
      have hbody := Closes.plainKind hv rfl (.openingKind hw rfl (ih h))
      exact .plainKind ht rfl (.plainKind hu rfl hbody)
  | noMethods ht => exact .closingKind ht rfl
  | strayMethods ht _ ih => exact fun h => .plainKind ht rfl (ih h)
  | methods ht _ _ ih1 ih2 => exact fun h => .plainKind ht rfl (ih1 (ih2 h))
  | method ht hu hv _ _ ih1 ih2 =>
      exact fun h => .plainKind ht rfl (.plainKind hu rfl (.plainKind hv rfl (ih1 (ih2 h))))
  | emptyProgram => exact id
  | program _ _ ih1 ih2 => exact fun h => ih1 (ih2 h)

end Phrase

namespace Reading

/-- A text that is read without a fault is read up to the end token, which is its last. -/
theorem exists_spelled_tokenize {text : String} (h : (ofText text).errors = []) :
    ∃ e, e.kind = TokenKind.eof ∧
      (Phrase.program (ofText text).program).Spelled (tokenize text) [e] := by
  obtain ⟨ts, hts, htokens, -⟩ := exists_tokensFrom_append 0 text.toList
  obtain ⟨rest, hspelled⟩ := program_spelled h
  obtain ⟨seg, hseg, hproper⟩ := hspelled.taken
  have hend : aheadKind rest = .eof := hspelled.endsBefore
  rw [tokenize, htokens] at hseg
  cases rest with
  | nil =>
      rw [List.append_nil] at hseg
      cases hproper _ (hseg ▸ List.mem_append_right ts List.mem_cons_self)
  | cons r rest =>
      rcases List.eq_nil_or_concat rest with rfl | ⟨us, u, rfl⟩
      · exact ⟨r, hend, hspelled⟩
      · rw [List.concat_eq_append, ← List.cons_append, ← List.append_assoc] at hseg
        obtain ⟨rfl, -⟩ := List.append_inj' hseg rfl
        exact absurd hend (hts r (List.mem_append_right seg List.mem_cons_self))

/-- The brackets of a text that is read without a fault are nested. -/
theorem nested_tokenize {text : String} (h : (ofText text).errors = []) :
    Nested (tokenize text) := by
  obtain ⟨e, he, hspelled⟩ := exists_spelled_tokenize h
  exact hspelled.closes (.plainKind he rfl .nil)

end Reading

end Scripting
