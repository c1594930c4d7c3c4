import Scripting.Proofs.Reading.Fuel
import Scripting.Proofs.Token.Position

/-!
# What reading looks at

Reading looks at the kinds and the literals of tokens alone, one after another, and behind the last
token it finds end tokens without end. So positions do not matter, and neither does how many end
tokens a list ends with. Every step of reading is put together from steps that tell no more of two
lists than they show.
-/

namespace Scripting

/-- The end token that is found behind the last token of a list. -/
def Token.pastEnd : Token :=
  ⟨.eof, "", 0⟩

/-- What a token list shows one after another: its tokens without their positions, and end tokens
behind them. -/
def shown (ts : List Token) (i : Nat) : Token :=
  (ts[i]?.getD Token.pastEnd).bare

/-- Two token lists show the same. -/
def Alike (ts us : List Token) : Prop :=
  ∀ i, shown ts i = shown us i

theorem shown_of_length_le {ts : List Token} {i : Nat} (h : ts.length ≤ i) :
    shown ts i = Token.pastEnd := by
  rw [shown, List.getElem?_eq_none h]
  rfl

theorem shown_zero (ts : List Token) : shown ts 0 = (Step.next ts).value.bare := by
  cases ts with
  | nil => rfl
  | cons t ts => rfl

theorem kind_shown_zero (ts : List Token) : (shown ts 0).kind = Step.aheadKind ts := by
  cases ts with
  | nil => rfl
  | cons t ts => rfl

namespace Alike

variable {t : Token} {ts us : List Token}

theorem map_bare (ts : List Token) : Alike (ts.map Token.bare) ts := by
  intro i
  rw [shown, shown, List.getElem?_map]
  cases ts[i]? with
  | none => rfl
  | some t => rfl

theorem tail (h : Alike ts us) : Alike ts.tail us.tail := by
  intro i
  have hnext := h (i + 1)
  unfold shown at hnext ⊢
  rwa [List.getElem?_tail, List.getElem?_tail]

theorem next (h : Alike ts us) :
    (Step.next ts).value.bare = (Step.next us).value.bare := by
  rw [← shown_zero, ← shown_zero]
  exact h 0

theorem aheadKind (h : Alike ts us) : Step.aheadKind ts = Step.aheadKind us := by
  rw [← kind_shown_zero, ← kind_shown_zero, h 0]

/-- A token that is no end token is there in both lists. -/
theorem of_cons (h : Alike (t :: ts) us) (ht : t.kind ≠ .eof) :
    ∃ u vs, us = u :: vs ∧ u.kind = t.kind ∧ u.literal = t.literal ∧ Alike ts vs := by
  cases us with
  | nil => exact absurd h.aheadKind ht
  | cons u us =>
      exact ⟨u, us, rfl, h.aheadKind.symm, (congrArg Token.literal h.next).symm, h.tail⟩

end Alike

namespace Step

variable {α β : Type}

/-- The step gives the same and records the same errors on all lists that show the same, and leaves
lists that show the same. -/
def Blind (x : Step α) : Prop :=
  ∀ ts us, Alike ts us →
    (x ts).value = (x us).value ∧ Alike (x ts).rest (x us).rest ∧ (x ts).errors = (x us).errors

theorem aheadKind_map_bare (ts : List Token) : aheadKind (ts.map Token.bare) = aheadKind ts :=
  (Alike.map_bare ts).aheadKind

theorem rest_next (ts : List Token) : (next ts).rest = ts.tail := by
  cases ts with
  | nil => rfl
  | cons t ts => rfl

namespace Blind

variable {x : Step α} {f : α → Step β}

theorem pure (a : α) : (Pure.pure a : Step α).Blind := fun _ _ h => ⟨rfl, h, rfl⟩

theorem bind (hx : x.Blind) (hf : ∀ a, (f a).Blind) : (x >>= f).Blind := by
  intro ts us h
  obtain ⟨hvalue, hrest, herrors⟩ := hx ts us h
  obtain ⟨hvalue', hrest', herrors'⟩ := hf (x ts).value _ _ hrest
  rw [bind_apply, bind_apply, ← hvalue, ← herrors]
  exact ⟨hvalue', hrest', congrArg ((x ts).errors ++ ·) herrors'⟩

theorem peek : Step.peek.Blind := fun _ _ h => ⟨h.aheadKind, h, rfl⟩

theorem peekSecond : Step.peekSecond.Blind := fun _ _ h => ⟨h.tail.aheadKind, h, rfl⟩

theorem next {f : Token → Step β} (hbare : ∀ t, f t.bare = f t) (hf : ∀ t, (f t).Blind) :
    (Step.next >>= f).Blind := by
  intro ts us h
  have hfirst : f (Step.next ts).value = f (Step.next us).value := by
    rw [← hbare, h.next, hbare]
  rw [bind_apply, bind_apply, rest_next, rest_next, hfirst]
  obtain ⟨hvalue, hrest, herrors⟩ := hf (Step.next us).value _ _ h.tail
  refine ⟨hvalue, hrest, ?_⟩
  have hnone (ts : List Token) : (Step.next ts).errors = [] := by
    cases ts with
    | nil => rfl
    | cons t ts => rfl
  rw [hnone, hnone, herrors]

theorem report (e : SyntaxError) : (Step.report e).Blind := fun _ _ h => ⟨rfl, h, rfl⟩

theorem expect (wanted : TokenKind) (absent : α) {found : String → Step α}
    (hf : ∀ s, (found s).Blind) : (Step.expect wanted absent found).Blind := by
  intro ts us h
  unfold Step.expect
  have hliteral := congrArg Token.literal h.next
  rw [Token.literal_bare, Token.literal_bare] at hliteral
  rw [h.aheadKind, hliteral]
  split
  · exact hf _ _ _ h.tail
  · exact ⟨rfl, h, rfl⟩

theorem skipSemicolon : Step.skipSemicolon.Blind := by
  intro ts us h
  unfold Step.skipSemicolon
  rw [h.aheadKind]
  split
  · exact ⟨rfl, h.tail, rfl⟩
  · exact ⟨rfl, h, rfl⟩

theorem outOfFuel (absent : α) : (Grammar.outOfFuel absent).Blind :=
  fun _ _ _ => ⟨rfl, fun _ => rfl, rfl⟩

theorem ite {c : Prop} [Decidable c] {x y : Step α} (hx : x.Blind) (hy : y.Blind) :
    (if c then x else y).Blind := by
  split
  · exact hx
  · exact hy

end Blind

end Step

namespace Grammar

open Step Precedence

/-- With an amount of fuel no grammar function looks at positions. -/
structure BlindAt (fuel : Nat) : Prop where
  expression : ∀ precedence, (expression fuel precedence).Blind
  operators : ∀ precedence left, (operators fuel precedence left).Blind
  operand : ∀ t, (operand fuel t).Blind
  operation : ∀ left t, (operation fuel left t).Blind
  expressions : ∀ close, (expressions fuel close).Blind
  moreExpressions : (moreExpressions fuel).Blind
  pairs : (pairs fuel).Blind
  conditional : (conditional fuel).Blind
  functionLiteral : (functionLiteral fuel).Blind
  block : (block fuel).Blind
  statement : (statement fuel).Blind
  expressionStatement : (expressionStatement fuel).Blind
  classDefinition : (classDefinition fuel).Blind
  methods : (methods fuel).Blind
  method : (method fuel).Blind

theorem BlindAt.zero : BlindAt 0 where
  expression _ := .outOfFuel _
  operators _ _ := .outOfFuel _
  operand _ := .outOfFuel _
  operation _ _ := .outOfFuel _
  expressions _ := .outOfFuel _
  moreExpressions := .outOfFuel _
  pairs := .outOfFuel _
  conditional := .outOfFuel _
  functionLiteral := .outOfFuel _
  block := .outOfFuel _
  statement := .outOfFuel _
  expressionStatement := .outOfFuel _
  classDefinition := .outOfFuel _
  methods := .outOfFuel _
  method := .outOfFuel _

theorem operand_bare (fuel : Nat) (t : Token) : operand fuel t.bare = operand fuel t := by
  cases fuel with
  | zero => rfl
  | succ fuel => rfl

theorem operation_bare (fuel : Nat) (left : Expr) (t : Token) :
    operation fuel left t.bare = operation fuel left t := by
  cases fuel with
  | zero => rfl
  | succ fuel => rfl

theorem blind_integer (literal : String) : (integer literal).Blind := by
  rw [integer]
  refine .ite ((Blind.report _).bind fun _ => .pure _) ?_
  exact .ite ((Blind.report _).bind fun _ => .pure _) (.pure _)

theorem moreParameters_of_ident {t u : Token} (ts : List Token) (ht : t.kind = .comma)
    (hu : u.kind = .ident) :
    moreParameters (t :: u :: ts) =
      ⟨(moreParameters ts).value.map (u.literal :: ·), (moreParameters ts).rest,
        (moreParameters ts).errors⟩ := by
  rw [moreParameters, if_pos ht, if_pos hu]

theorem moreParameters_of_absent {t : Token} (ts : List Token) (ht : t.kind = .comma)
    (hts : aheadKind ts ≠ .ident) :
    moreParameters (t :: ts) = ⟨none, ts, [.expected .ident (aheadKind ts)]⟩ := by
  cases ts with
  | nil => rw [moreParameters.eq_def]; exact if_pos ht
  | cons u ts =>
      rw [aheadKind_cons] at hts ⊢
      rw [moreParameters, if_pos ht, if_neg hts]

theorem moreParameters_of_ne_comma {ts : List Token} (hts : aheadKind ts ≠ .comma) :
    moreParameters ts = Step.expect .rparen none (fun _ => pure (some [])) ts := by
  cases ts with
  | nil => rfl
  | cons t ts => rw [moreParameters.eq_def]; exact if_neg hts

theorem blind_moreParameters : moreParameters.Blind := by
  intro ts us h
  induction hn : ts.length using Nat.strongRecOn generalizing ts us with
  | ind n ih =>
      subst hn
      by_cases hcomma : aheadKind ts = .comma
      · cases ts with
        | nil => cases hcomma
        | cons t ts =>
            rw [aheadKind_cons] at hcomma
            obtain ⟨u, us, rfl, hu, -, hus⟩ :=
              h.of_cons (by rw [hcomma]; exact TokenKind.noConfusion)
            by_cases hident : aheadKind ts = .ident
            · cases ts with
              | nil => cases hident
              | cons v ts =>
                  rw [aheadKind_cons] at hident
                  obtain ⟨w, us, rfl, hw, hliteral, hws⟩ :=
                    hus.of_cons (by rw [hident]; exact TokenKind.noConfusion)
                  have hlt : ts.length < (t :: v :: ts).length := by
                    rw [List.length_cons, List.length_cons]
                    omega
                  obtain ⟨hvalue, hrest, herrors⟩ := ih _ hlt ts us hws rfl
                  rw [moreParameters_of_ident ts hcomma hident,
                    moreParameters_of_ident us (hu.trans hcomma) (hw.trans hident), hvalue,
                    hliteral]
                  exact ⟨rfl, hrest, herrors⟩
            · rw [moreParameters_of_absent ts hcomma hident,
                moreParameters_of_absent us (hu.trans hcomma) (hus.aheadKind ▸ hident),
                hus.aheadKind]
              exact ⟨rfl, hus, rfl⟩
      · rw [moreParameters_of_ne_comma hcomma,
          moreParameters_of_ne_comma (h.aheadKind ▸ hcomma)]
        exact Blind.expect _ _ (fun _ => .pure _) ts us h

theorem blind_parameters : parameters.Blind := by
  rw [parameters]
  refine Blind.peek.bind fun _ => .ite ?_ ?_
  · exact .next (fun _ => rfl) fun _ => .pure _
  · exact .expect _ _ fun _ => blind_moreParameters.bind fun _ => .pure _

namespace BlindAt

variable {fuel : Nat}

theorem expression_succ (h : BlindAt fuel) (precedence : Nat) :
    (Grammar.expression (fuel + 1) precedence).Blind := by
  rw [Grammar.expression]
  refine .next (fun t => ?_) fun t => .ite ?_ ?_
  · simp only [Token.kind_bare, operand_bare]
  · exact (h.operand t).bind fun left => h.operators precedence left
  · exact (Blind.report _).bind fun _ => .pure _

theorem operators_succ (h : BlindAt fuel) (precedence : Nat) (left : Expr) :
    (Grammar.operators (fuel + 1) precedence left).Blind := by
  rw [Grammar.operators]
  refine Blind.peek.bind fun _ => .ite (.next (fun t => ?_) fun t => ?_) (.pure _)
  · simp only [operation_bare]
  · exact (h.operation left t).bind fun whole => h.operators precedence whole

theorem operand_succ (h : BlindAt fuel) (t : Token) : (Grammar.operand (fuel + 1) t).Blind := by
  rw [Grammar.operand]
  split
  case h_2 => exact blind_integer _
  case h_9 => exact (h.expression _).bind fun _ => .pure _
  case h_10 => exact (h.expression _).bind fun _ => .pure _
  case h_11 => exact (h.expression _).bind fun _ => .expect _ _ fun _ => .pure _
  case h_12 => exact h.conditional
  case h_13 => exact h.functionLiteral.bind fun _ => .pure _
  case h_14 => exact .expect _ _ fun _ => (h.expressions _).bind fun _ => .pure _
  case h_15 => exact (h.expressions _).bind fun _ => .pure _
  case h_16 =>
    refine h.pairs.bind fun found => ?_
    cases found with
    | none => exact .pure _
    | some pairs => exact .expect _ _ fun _ => .pure _
  case h_17 =>
    exact .expect _ _ fun _ => .expect _ _ fun _ => (h.expressions _).bind fun _ => .pure _
  all_goals exact .pure _

theorem operation_succ (h : BlindAt fuel) (left : Expr) (t : Token) :
    (Grammar.operation (fuel + 1) left t).Blind := by
  rw [Grammar.operation]
  split
  case h_3 => exact (h.expressions _).bind fun _ => .pure _
  case h_4 => exact (h.expression _).bind fun _ => .expect _ _ fun _ => .pure _
  case h_5 => exact .expect _ _ fun _ => .pure _
  case h_6 =>
    have hvalue : (Grammar.expression fuel lowest >>= fun value =>
        pure (Expr.assign left value)).Blind :=
      (h.expression _).bind fun _ => .pure _
    exact .ite hvalue ((Blind.report _).bind fun _ => hvalue)
  all_goals exact (h.expression _).bind fun _ => .pure _

theorem expressions_succ (h : BlindAt fuel) (close : TokenKind) :
    (Grammar.expressions (fuel + 1) close).Blind := by
  rw [Grammar.expressions]
  refine Blind.peek.bind fun _ => .ite (.next (fun _ => rfl) fun _ => .pure _) ?_
  refine (h.expression _).bind fun _ => h.moreExpressions.bind fun _ => ?_
  exact (Blind.expect _ _ fun _ => .pure _).bind fun _ => .pure _

theorem moreExpressions_succ (h : BlindAt fuel) : (Grammar.moreExpressions (fuel + 1)).Blind := by
  rw [Grammar.moreExpressions]
  refine Blind.peek.bind fun _ => .ite (.next (fun _ => rfl) fun _ => ?_) (.pure _)
  exact (h.expression _).bind fun _ => h.moreExpressions.bind fun _ => .pure _

theorem pairs_succ (h : BlindAt fuel) : (Grammar.pairs (fuel + 1)).Blind := by
  rw [Grammar.pairs]
  refine Blind.peek.bind fun _ => .ite (.pure _) ?_
  refine (h.expression _).bind fun _ => .expect _ _ fun _ => (h.expression _).bind fun _ => ?_
  refine Blind.peek.bind fun _ => .ite (.pure _) ?_
  exact .expect _ _ fun _ => h.pairs.bind fun _ => .pure _

theorem conditional_succ (h : BlindAt fuel) : (Grammar.conditional (fuel + 1)).Blind := by
  rw [Grammar.conditional]
  refine .expect _ _ fun _ => (h.expression _).bind fun _ => ?_
  refine .expect _ _ fun _ => .expect _ _ fun _ => h.block.bind fun _ => ?_
  refine Blind.peek.bind fun _ => .ite (.next (fun _ => rfl) fun _ => ?_) (.pure _)
  refine Blind.peek.bind fun _ => .ite (.next (fun _ => rfl) fun _ => ?_) ?_
  · exact h.conditional.bind fun _ => .pure _
  · exact .expect _ _ fun _ => h.block.bind fun _ => .pure _

theorem functionLiteral_succ (h : BlindAt fuel) : (Grammar.functionLiteral (fuel + 1)).Blind := by
  rw [Grammar.functionLiteral]
  refine .expect _ _ fun _ => blind_parameters.bind fun found => ?_
  cases found with
  | none => exact .pure _
  | some params => exact .expect _ _ fun _ => h.block.bind fun _ => .pure _

theorem block_succ (h : BlindAt fuel) : (Grammar.block (fuel + 1)).Blind := by
  rw [Grammar.block]
  refine Blind.peek.bind fun _ => .ite (.next (fun _ => rfl) fun _ => .pure _) (.ite ?_ ?_)
  · exact (Blind.report _).bind fun _ => .next (fun _ => rfl) fun _ => .pure _
  · exact h.statement.bind fun _ => h.block.bind fun _ => .pure _

theorem expressionStatement_succ (h : BlindAt fuel) :
    (Grammar.expressionStatement (fuel + 1)).Blind := by
  rw [Grammar.expressionStatement]
  exact (h.expression _).bind fun _ => Blind.skipSemicolon.bind fun _ => .pure _

theorem statement_succ (h : BlindAt fuel) : (Grammar.statement (fuel + 1)).Blind := by
  rw [Grammar.statement]
  refine Blind.peek.bind fun ahead => ?_
  split
  case h_1 =>
    refine .next (fun _ => rfl) fun _ => .expect _ _ fun _ => .expect _ _ fun _ => ?_
    exact (h.expression _).bind fun _ => Blind.skipSemicolon.bind fun _ => .pure _
  case h_2 =>
    refine .next (fun _ => rfl) fun _ => Blind.peek.bind fun _ => .ite ?_ ?_
    · exact Blind.skipSemicolon.bind fun _ => .pure _
    · exact (h.expression _).bind fun _ => Blind.skipSemicolon.bind fun _ => .pure _
  case h_3 => exact .next (fun _ => rfl) fun _ => h.classDefinition
  case h_4 => exact .next (fun _ => rfl) fun _ => .pure _
  case h_5 =>
    refine Blind.peekSecond.bind fun _ => .ite ?_ h.expressionStatement
    refine .next (fun _ => rfl) fun _ => .next (fun _ => rfl) fun name => ?_
    refine h.functionLiteral.bind fun found => ?_
    cases found with
    | none => exact .pure _
    | some literal => exact Blind.skipSemicolon.bind fun _ => .pure _
  case h_6 => exact h.expressionStatement

theorem classDefinition_succ (h : BlindAt fuel) : (Grammar.classDefinition (fuel + 1)).Blind := by
  rw [Grammar.classDefinition]
  refine .expect _ _ fun _ => Blind.peek.bind fun _ => .ite (.next (fun _ => rfl) fun _ => ?_) ?_
  · exact .expect _ _ fun _ => .expect _ _ fun _ => h.methods.bind fun _ => .pure _
  · exact .expect _ _ fun _ => h.methods.bind fun _ => .pure _

theorem methods_succ (h : BlindAt fuel) : (Grammar.methods (fuel + 1)).Blind := by
  rw [Grammar.methods]
  refine .next (fun _ => rfl) fun t => ?_
  split
  case h_1 => exact .pure _
  case h_2 => exact (Blind.report _).bind fun _ => .pure _
  case h_3 => exact h.method.bind fun _ => h.methods.bind fun _ => .pure _
  case h_4 => exact h.methods
  case h_5 => exact (Blind.report _).bind fun _ => h.methods

theorem method_succ (h : BlindAt fuel) : (Grammar.method (fuel + 1)).Blind := by
  rw [Grammar.method]
  refine .expect _ _ fun _ => .expect _ _ fun _ => .expect _ _ fun _ => ?_
  refine h.functionLiteral.bind fun found => ?_
  cases found with
  | none => exact .pure _
  | some literal => exact Blind.skipSemicolon.bind fun _ => .pure _

theorem succ (h : BlindAt fuel) : BlindAt (fuel + 1) where
  expression := h.expression_succ
  operators := h.operators_succ
  operand := h.operand_succ
  operation := h.operation_succ
  expressions := h.expressions_succ
  moreExpressions := h.moreExpressions_succ
  pairs := h.pairs_succ
  conditional := h.conditional_succ
  functionLiteral := h.functionLiteral_succ
  block := h.block_succ
  statement := h.statement_succ
  expressionStatement := h.expressionStatement_succ
  classDefinition := h.classDefinition_succ
  methods := h.methods_succ
  method := h.method_succ

end BlindAt

theorem blindAt (fuel : Nat) : BlindAt fuel := by
  induction fuel with
  | zero => exact .zero
  | succ fuel ih => exact ih.succ

theorem blind_program (fuel : Nat) : (program fuel).Blind := by
  induction fuel with
  | zero => exact .outOfFuel _
  | succ fuel ih =>
      rw [Grammar.program]
      refine Blind.peek.bind fun _ => .ite (.pure _) ?_
      exact (blindAt fuel).statement.bind fun _ => ih.bind fun _ => .pure _

end Grammar

/-- Token lists that show the same are read alike. -/
theorem Reading.ofTokens_of_alike {ts us : List Token} (h : Alike ts us) :
    ofTokens ts = ofTokens us := by
  -- Both are read with an amount of fuel that is enough for either.
  have hts : 8 * ts.length + 5 < 8 * (ts.length + us.length) + 6 := by omega
  have hus : 8 * us.length + 5 < 8 * (ts.length + us.length) + 6 := by omega
  obtain ⟨hvalue, -, herrors⟩ := Grammar.blind_program _ _ _ h
  rw [ofTokens_eq_program hts, ofTokens_eq_program hus, hvalue, herrors]

/-- Positions do not matter to a reading. -/
theorem Reading.ofTokens_bare (ts : List Token) : ofTokens (ts.map Token.bare) = ofTokens ts :=
  ofTokens_of_alike (.map_bare ts)

end Scripting
