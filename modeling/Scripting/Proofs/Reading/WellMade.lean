import Scripting.Proofs.Reading.Extent
import Scripting.Proofs.Reading.Soundness
import Scripting.Proofs.Token.DigitRow
import Scripting.Proofs.Tree.Forall

/-!
# Well-made trees

In a well-made tree nothing is missing but the values of bare returns, every target of an assignment
can be assigned to, and every integer is the number that its digits spell and is not too large. The
tree of a faultless reading is well made, provided that the integer tokens have digits only.
-/

namespace Scripting

open Step

/-- What a well-made tree asks of each of its nodes. -/
def Expr.IsSound : Expr → Prop
  | .missing => False
  | .int value literal =>
      DigitRow literal ∧ value = numberOfDigits literal.toList ∧ 0 ≤ value ∧
        value ≤ largestInteger
  | .assign target _ => target.isAssignable = true
  | _ => True

theorem DigitRows.of_taken {p : Token → Prop} {ts rest : List Token} (h : DigitRows ts)
    (htaken : Taken p ts rest) : DigitRows rest := by
  obtain ⟨seg, rfl, -⟩ := htaken
  exact fun t ht => h t (List.mem_append_right seg ht)

theorem Expr.ne_missing_of_isSound {e : Expr} (h : e.Forall Expr.IsSound) : e ≠ .missing := by
  rintro rfl
  exact h

theorem Token.isSound_of_leaf? {t : Token} {e : Expr}
    (ht : t.kind = .int → DigitRow t.literal) (h : t.leaf? = some e) : e.Forall Expr.IsSound := by
  cases hk : t.kind <;> simp only [leaf?, hk, reduceCtorEq, Option.some.injEq] at h
  case int =>
    have hrow := ht hk
    have hvalue := literalValue_of_digitRow hrow
    split at h
    · next hlimits =>
        cases h
        refine ⟨hrow, hvalue, ?_, hlimits.2⟩
        rw [hvalue]
        exact Int.natCast_nonneg _
    · cases h
  all_goals
    subst h
    exact trivial

namespace Phrase

variable {phrase : Phrase} {ts rest : List Token}

/-- The trees of a phrase have only sound nodes, if what stands to the left has. -/
def IsSound : Phrase → Prop
  | expression _ e | operand e | conditional e => e.Forall Expr.IsSound
  | operators _ left whole | operation left whole =>
      left.Forall Expr.IsSound → whole.Forall Expr.IsSound
  | expressions _ es | moreExpressions es => Expr.ForallIn Expr.IsSound es
  | pairs ps => Expr.ForallInPairs Expr.IsSound ps
  | parameters _ | moreParameters _ | semicolon => True
  | functionLiteral literal | method _ literal => literal.Forall Expr.IsSound
  | block b | program b => Block.Forall Expr.IsSound b
  | expressionStatement s | classDefinition s => s.Forall Expr.IsSound
  | statement s => Block.Forall Expr.IsSound s.toList
  | methods ms => FunctionLiteral.ForallIn Expr.IsSound ms

theorem Spelled.isSound (h : phrase.Spelled ts rest) (hts : DigitRows ts) : phrase.IsSound := by
  induction h with
  | expression h1 _ ih1 ih2 => exact ih2 (hts.of_taken h1.taken) (ih1 hts)
  | noOperator => exact id
  | operator _ h1 _ ih1 ih2 => exact fun hleft => ih2 (hts.of_taken h1.taken) (ih1 hts hleft)
  | leaf h => exact Token.isSound_of_leaf? (hts _ List.mem_cons_self) h
  | unary _ _ ih => exact ⟨trivial, ih hts.tail⟩
  | grouped _ _ _ ih => exact ih hts.tail
  | condition _ _ ih => exact ih hts.tail
  | function _ _ ih => exact ⟨trivial, ih hts.tail⟩
  | print _ _ _ ih => exact ⟨trivial, trivial, ih hts.tail.tail⟩
  | array _ _ ih => exact ⟨trivial, ih hts.tail⟩
  | map _ _ _ ih => exact ⟨trivial, ih hts.tail⟩
  | new _ _ _ _ ih => exact ⟨trivial, ih hts.tail.tail.tail⟩
  | binary _ _ ih => exact fun hleft => ⟨trivial, hleft, ih hts.tail⟩
  | logical _ _ ih => exact fun hleft => ⟨trivial, hleft, ih hts.tail⟩
  | call _ _ ih => exact fun hleft => ⟨trivial, hleft, ih hts.tail⟩
  | index _ _ _ ih => exact fun hleft => ⟨trivial, hleft, ih hts.tail⟩
  | property => exact fun hleft => ⟨trivial, hleft⟩
  | assign _ hassignable _ ih => exact fun hleft => ⟨hassignable, hleft, ih hts.tail⟩
  | noExpressions => exact trivial
  | someExpressions h1 _ _ ih1 ih2 => exact ⟨ih1 hts, ih2 (hts.of_taken h1.taken)⟩
  | noMoreExpressions => exact trivial
  | moreExpressions _ h1 _ ih1 ih2 => exact ⟨ih1 hts.tail, ih2 (hts.tail.of_taken h1.taken)⟩
  | noPairs => exact trivial
  | lastPair h1 _ _ _ ih1 ih2 => exact ⟨ih1 hts, ih2 (hts.of_taken h1.taken).tail, trivial⟩
  | morePairs h1 _ h2 _ _ ih1 ih2 ih3 =>
      have hvalue := (hts.of_taken h1.taken).tail
      exact ⟨ih1 hts, ih2 hvalue, ih3 (hvalue.of_taken h2.taken).tail⟩
  | withoutElse _ h1 _ _ _ _ ih1 ih2 =>
      exact ⟨trivial, ih1 hts.tail, ih2 (hts.tail.of_taken h1.taken).tail.tail⟩
  | withElse _ h1 _ _ h2 _ _ _ ih1 ih2 ih3 =>
      have hblock := (hts.tail.of_taken h1.taken).tail.tail
      exact ⟨trivial, ih1 hts.tail, ih2 hblock, ih3 (hblock.of_taken h2.taken).tail.tail⟩
  | elseIf _ h1 _ _ h2 _ _ _ ih1 ih2 ih3 =>
      have hblock := (hts.tail.of_taken h1.taken).tail.tail
      have hnested := (hblock.of_taken h2.taken).tail.tail
      exact ⟨trivial, ih1 hts.tail, ih2 hblock, ih3 hnested, trivial⟩
  | noParameters => exact trivial
  | someParameters => exact trivial
  | noMoreParameters => exact trivial
  | moreParameters => exact trivial
  | functionLiteral _ h1 _ _ _ ih => exact ih (hts.tail.of_taken h1.taken).tail
  | emptyBlock => exact trivial
  | block h1 _ ih1 ih2 => exact Block.forall_append.mpr ⟨ih1 hts, ih2 (hts.of_taken h1.taken)⟩
  | semicolon => exact trivial
  | noSemicolon => exact trivial
  | expressionStatement _ _ ih => exact ih hts
  | emptyStatement => exact trivial
  | expr _ ih => exact ⟨ih hts, trivial⟩
  | letIn _ _ _ _ _ ih => exact ⟨ih hts.tail.tail.tail, trivial⟩
  | bareReturn => exact ⟨trivial, trivial⟩
  | ret _ _ _ ih =>
      have he := ih hts.tail
      exact ⟨(Stmt.forall_ret (Expr.ne_missing_of_isSound he)).mpr he, trivial⟩
  | namedFunction _ _ _ _ ih => exact ⟨⟨trivial, ih hts.tail.tail⟩, trivial⟩
  | classDef _ _ ih => exact ⟨ih hts.tail, trivial⟩
  | baseClass _ _ _ ih => exact ih hts.tail.tail
  | subclass _ _ _ _ _ ih => exact ih hts.tail.tail.tail.tail
  | noMethods => exact trivial
  | strayMethods _ _ ih => exact ih hts.tail
  | methods _ h1 _ ih1 ih2 => exact ⟨ih1 hts.tail, ih2 (hts.tail.of_taken h1.taken)⟩
  | method _ _ _ _ _ ih => exact ih hts.tail.tail.tail
  | emptyProgram => exact trivial
  | program h1 _ ih1 ih2 => exact Block.forall_append.mpr ⟨ih1 hts, ih2 (hts.of_taken h1.taken)⟩

end Phrase

/-- The tree of a faultless reading is well made. -/
theorem Reading.forall_isSound {ts : List Token} (h : (Reading.ofTokens ts).errors = [])
    (hts : DigitRows ts) : Block.Forall Expr.IsSound (Reading.ofTokens ts).program := by
  obtain ⟨rest, hspelled⟩ := Reading.program_spelled h
  exact hspelled.isSound hts

end Scripting
