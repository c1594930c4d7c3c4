import Scripting.Reading
import Scripting.Proofs.Token.Word
import Scripting.Proofs.Tree.Given

/-!
# The names that a read tree gives

Every name that a tree gives was read off an identifier token, whether the text has faults or not.
A reserved word never is one: `this`, `super` and `print` have kinds of their own.

`x.Draws W Q` says of a step of reading that, where the identifiers ahead satisfy `W`, those left do
and what is read satisfies `Q`. Each grammar function is put together from such steps; the induction
is on the fuel, over all outcomes.
-/

namespace Scripting

variable {W : String → Prop}

/-- The identifiers of a token list satisfy `W`. -/
def Identifiers (W : String → Prop) (ts : List Token) : Prop :=
  ∀ t ∈ ts, t.kind = .ident → W t.literal

/-- `W` holds of all of some names. -/
abbrev AllNames (W : String → Prop) (names : List String) : Prop :=
  ∀ name ∈ names, W name

theorem AllNames.nil : AllNames W [] := fun _ h => absurd h List.not_mem_nil

theorem AllNames.cons {name : String} {names : List String} (hname : W name)
    (hnames : AllNames W names) : AllNames W (name :: names) :=
  List.forall_mem_cons.mpr ⟨hname, hnames⟩

theorem AllNames.append {names more : List String} (hnames : AllNames W names)
    (hmore : AllNames W more) : AllNames W (names ++ more) :=
  List.forall_mem_append.mpr ⟨hnames, hmore⟩

namespace Step

variable {α β : Type}

/-- Where the identifiers ahead satisfy `W`, those left do and what is read satisfies `Q`. -/
def Draws (W : String → Prop) (Q : α → Prop) (x : Step α) : Prop :=
  ∀ ts, Identifiers W ts → Identifiers W (x ts).rest ∧ Q (x ts).value

namespace Draws

variable {Q : α → Prop} {R : β → Prop} {x : Step α} {f : α → Step β}

theorem pure {a : α} (ha : Q a) : (Pure.pure a : Step α).Draws W Q :=
  fun _ hts => ⟨hts, ha⟩

theorem bind (hx : x.Draws W Q) (hf : ∀ a, Q a → (f a).Draws W R) : (x >>= f).Draws W R := by
  intro ts hts
  obtain ⟨hrest, hvalue⟩ := hx ts hts
  exact hf _ hvalue _ hrest

theorem peek : Step.peek.Draws W fun _ => True :=
  fun _ hts => ⟨hts, trivial⟩

theorem next : Step.next.Draws W fun t => t.kind = .ident → W t.literal := by
  intro ts hts
  cases ts with
  | nil => exact ⟨hts, fun h => nomatch h⟩
  | cons t ts => exact ⟨fun u hu => hts u (List.mem_cons_of_mem _ hu), hts t List.mem_cons_self⟩

theorem report (e : SyntaxError) : (Step.report e).Draws W fun _ => True :=
  fun _ hts => ⟨hts, trivial⟩

theorem expect {wanted : TokenKind} {absent : α} {found : String → Step α} (habsent : Q absent)
    (hfound : ∀ s, (wanted = .ident → W s) → (found s).Draws W Q) :
    (Step.expect wanted absent found).Draws W Q := by
  intro ts hts
  unfold Step.expect
  split
  · next hkind =>
      cases ts with
      | nil =>
          have hne : wanted ≠ .ident := by
            rintro rfl
            cases hkind
          exact hfound _ (fun h => absurd h hne) [] hts
      | cons t ts =>
          have ht : wanted = .ident → W t.literal := fun h =>
            hts t List.mem_cons_self (Eq.trans hkind h)
          exact hfound t.literal ht ts fun u hu => hts u (List.mem_cons_of_mem _ hu)
  · exact ⟨hts, habsent⟩

theorem skipSemicolon : Step.skipSemicolon.Draws W fun _ => True := by
  intro ts hts
  unfold Step.skipSemicolon
  split
  · exact ⟨fun t ht => hts t (List.mem_of_mem_tail ht), trivial⟩
  · exact ⟨hts, trivial⟩

theorem outOfFuel {absent : α} (habsent : Q absent) : (Grammar.outOfFuel absent).Draws W Q :=
  fun _ _ => ⟨fun _ h => absurd h List.not_mem_nil, habsent⟩

theorem ite {c : Prop} [Decidable c] {x y : Step α} (hx : x.Draws W Q) (hy : y.Draws W Q) :
    (if c then x else y).Draws W Q := by
  split
  · exact hx
  · exact hy

/-- Behind a token that is looked past, a name is taken only where an identifier stands. -/
theorem ofSecond {f : Token → Step α} {y : Step α} (hf : ∀ t, W t.literal → (f t).Draws W Q)
    (hy : y.Draws W Q) :
    (do
      if (← Step.peekSecond) = TokenKind.ident then
        let _ ← Step.next
        let name ← Step.next
        f name
      else y).Draws W Q := by
  intro ts hts
  match ts with
  | [] => exact hy [] hts
  | [t] => exact hy [t] hts
  | t :: u :: rest =>
      by_cases hu : u.kind = .ident
      · have hname : W u.literal := hts u (List.mem_cons_of_mem _ List.mem_cons_self) hu
        have hrest : Identifiers W rest := fun v hv =>
          hts v (List.mem_cons_of_mem _ (List.mem_cons_of_mem _ hv))
        simpa [bind_apply, hu] using hf u hname rest hrest
      · simpa [bind_apply, hu] using hy _ hts

end Draws

end Step

namespace Grammar

open Step Precedence

variable (W)

/-- With an amount of fuel every grammar function reads the names that are given off identifiers. -/
structure DrawsAt (fuel : Nat) : Prop where
  expression : ∀ precedence,
    (expression fuel precedence).Draws W fun e => AllNames W e.givenAsTarget
  operators : ∀ precedence left, AllNames W left.givenAsTarget →
    (operators fuel precedence left).Draws W fun e => AllNames W e.givenAsTarget
  operand : ∀ t : Token, (t.kind = .ident → W t.literal) →
    (operand fuel t).Draws W fun e => AllNames W e.givenAsTarget
  operation : ∀ left t, AllNames W left.givenAsTarget →
    (operation fuel left t).Draws W fun e => AllNames W e.givenAsTarget
  expressions : ∀ close, (expressions fuel close).Draws W fun es => AllNames W (Expr.givenIn es)
  moreExpressions : (moreExpressions fuel).Draws W fun es => AllNames W (Expr.givenIn es)
  pairs : (pairs fuel).Draws W fun r => ∀ ps ∈ r, AllNames W (Expr.givenInPairs ps)
  conditional : (conditional fuel).Draws W fun e => AllNames W e.givenAsTarget
  functionLiteral : (functionLiteral fuel).Draws W fun r => ∀ f ∈ r, AllNames W f.given
  block : (block fuel).Draws W fun b => AllNames W (Block.given b)
  statement : (statement fuel).Draws W fun r => ∀ s ∈ r, AllNames W s.given
  expressionStatement : (expressionStatement fuel).Draws W fun r => ∀ s ∈ r, AllNames W s.given
  classDefinition : (classDefinition fuel).Draws W fun r => ∀ s ∈ r, AllNames W s.given
  methods : (methods fuel).Draws W fun r => ∀ ms ∈ r, AllNames W (FunctionLiteral.givenIn ms)
  method : (method fuel).Draws W fun r => ∀ row ∈ r, AllNames W (row.1 :: row.2.given)

variable {W}

theorem forall_mem_none {α : Type} {Q : α → Prop} : ∀ a ∈ (none : Option α), Q a :=
  fun _ h => nomatch h

theorem forall_mem_some {α : Type} {Q : α → Prop} {a : α} (ha : Q a) : ∀ b ∈ some a, Q b :=
  fun _ h => Option.mem_some_iff.mp h ▸ ha

theorem forall_mem_map {α β : Type} {Q : α → Prop} {R : β → Prop} {f : α → β} {r : Option α}
    (hr : ∀ a ∈ r, Q a) (hf : ∀ a, Q a → R (f a)) : ∀ b ∈ r.map f, R b := by
  intro b hb
  obtain ⟨a, ha, rfl⟩ := Option.map_eq_some_iff.mp hb
  exact hf a (hr a ha)

theorem DrawsAt.zero : DrawsAt W 0 where
  expression _ := .outOfFuel .nil
  operators _ _ _ := .outOfFuel .nil
  operand _ _ := .outOfFuel .nil
  operation _ _ _ := .outOfFuel .nil
  expressions _ := .outOfFuel .nil
  moreExpressions := .outOfFuel .nil
  pairs := .outOfFuel forall_mem_none
  conditional := .outOfFuel .nil
  functionLiteral := .outOfFuel forall_mem_none
  block := .outOfFuel .nil
  statement := .outOfFuel forall_mem_none
  expressionStatement := .outOfFuel forall_mem_none
  classDefinition := .outOfFuel forall_mem_none
  methods := .outOfFuel forall_mem_none
  method := .outOfFuel forall_mem_none

theorem draws_integer (literal : String) :
    (integer literal).Draws W fun e => AllNames W e.givenAsTarget := by
  rw [integer]
  refine .ite ((Draws.report _).bind fun _ _ => .pure .nil) ?_
  exact .ite ((Draws.report _).bind fun _ _ => .pure .nil) (.pure .nil)

theorem draws_moreParameters :
    moreParameters.Draws W fun r => ∀ params ∈ r, AllNames W params := by
  intro ts hts
  induction ts using moreParameters.induct with
  | case1 => exact ⟨hts, forall_mem_none⟩
  | case2 t ht => 
      rw [moreParameters, if_pos ht]
      exact ⟨fun _ h => absurd h List.not_mem_nil, forall_mem_none⟩
  | case3 t ht u us hu ih =>
      have hrest : Identifiers W us := fun v hv =>
        hts v (List.mem_cons_of_mem _ (List.mem_cons_of_mem _ hv))
      have hname : W u.literal := hts u (List.mem_cons_of_mem _ List.mem_cons_self) hu
      obtain ⟨hleft, hmore⟩ := ih hrest
      rw [moreParameters, if_pos ht, if_pos hu]
      exact ⟨hleft, forall_mem_map hmore fun _ h => h.cons hname⟩
  | case4 t ht u us hu =>
      rw [moreParameters, if_pos ht, if_neg hu]
      exact ⟨fun v hv => hts v (List.mem_cons_of_mem _ hv), forall_mem_none⟩
  | case5 t us hcomma ht =>
      rw [moreParameters.eq_def]
      dsimp only
      rw [if_neg hcomma, if_pos ht]
      exact ⟨fun v hv => hts v (List.mem_cons_of_mem _ hv), forall_mem_some .nil⟩
  | case6 t us hcomma ht =>
      rw [moreParameters.eq_def]
      dsimp only
      rw [if_neg hcomma, if_neg ht]
      exact ⟨hts, forall_mem_none⟩

theorem draws_parameters : parameters.Draws W fun r => ∀ params ∈ r, AllNames W params := by
  rw [parameters]
  refine Draws.peek.bind fun _ _ => .ite ?_ ?_
  · exact Draws.next.bind fun _ _ => .pure (forall_mem_some .nil)
  · refine .expect forall_mem_none fun name hname => draws_moreParameters.bind fun more hmore => ?_
    exact .pure (forall_mem_map hmore fun _ h => h.cons (hname rfl))

namespace DrawsAt

variable {fuel : Nat}

theorem expression_succ (h : DrawsAt W fuel) (precedence : Nat) :
    (Grammar.expression (fuel + 1) precedence).Draws W fun e => AllNames W e.givenAsTarget := by
  rw [Grammar.expression]
  refine Draws.next.bind fun t ht => .ite ?_ ?_
  · exact (h.operand t ht).bind fun left hleft => h.operators precedence left hleft
  · exact (Draws.report _).bind fun _ _ => .pure .nil

theorem operators_succ (h : DrawsAt W fuel) (precedence : Nat) (left : Expr)
    (hleft : AllNames W left.givenAsTarget) :
    (Grammar.operators (fuel + 1) precedence left).Draws W fun e =>
      AllNames W e.givenAsTarget := by
  rw [Grammar.operators]
  refine Draws.peek.bind fun _ _ => .ite (Draws.next.bind fun t _ => ?_) (.pure hleft)
  exact (h.operation left t hleft).bind fun whole hwhole => h.operators precedence whole hwhole

/-- What is read where a value is wanted gives what it gives as a target, or less. -/
theorem given (h : DrawsAt W fuel) (precedence : Nat) :
    (Grammar.expression fuel precedence).Draws W fun e => AllNames W e.given := fun ts hts =>
  ⟨(h.expression precedence ts hts).1, fun name hname =>
    (h.expression precedence ts hts).2 name (Expr.given_subset_givenAsTarget _ hname)⟩

theorem operand_succ (h : DrawsAt W fuel) (t : Token) (ht : t.kind = .ident → W t.literal) :
    (Grammar.operand (fuel + 1) t).Draws W fun e => AllNames W e.givenAsTarget := by
  rw [Grammar.operand]
  split
  case h_1 hkind => exact .pure (AllNames.nil.cons (ht hkind))
  case h_2 => exact draws_integer _
  case h_9 => exact (h.given _).bind fun _ he => .pure he
  case h_10 => exact (h.given _).bind fun _ he => .pure he
  case h_11 => exact (h.expression _).bind fun _ he => .expect .nil fun _ _ => .pure he
  case h_12 => exact h.conditional
  case h_13 =>
    refine h.functionLiteral.bind fun found hfound => .pure ?_
    cases found with
    | none => exact .nil
    | some literal => exact hfound literal rfl
  case h_14 => exact .expect .nil fun _ _ => (h.expressions _).bind fun _ hes => .pure hes
  case h_15 => exact (h.expressions _).bind fun _ hes => .pure hes
  case h_16 =>
    refine h.pairs.bind fun found hfound => ?_
    cases found with
    | none => exact .pure .nil
    | some pairs => exact .expect .nil fun _ _ => .pure (hfound pairs rfl)
  case h_17 =>
    refine .expect .nil fun name hname => .expect .nil fun _ _ => ?_
    exact (h.expressions _).bind fun _ hes => .pure (hes.cons (hname rfl))
  all_goals exact .pure .nil

theorem operation_succ (h : DrawsAt W fuel) (left : Expr) (t : Token)
    (hleft : AllNames W left.givenAsTarget) :
    (Grammar.operation (fuel + 1) left t).Draws W fun e => AllNames W e.givenAsTarget := by
  have hgiven : AllNames W left.given := fun name hname =>
    hleft name (Expr.given_subset_givenAsTarget _ hname)
  rw [Grammar.operation]
  split
  case h_3 => exact (h.expressions _).bind fun _ hes => .pure (hgiven.append hes)
  case h_4 =>
    exact (h.given _).bind fun _ he => .expect .nil fun _ _ => .pure (hgiven.append he)
  case h_5 => exact .expect .nil fun name hname => .pure (hgiven.cons (hname rfl))
  case h_6 =>
    have hvalue : (Grammar.expression fuel lowest >>= fun value =>
        pure (Expr.assign left value)).Draws W fun e => AllNames W e.givenAsTarget := by
      refine (h.given _).bind fun value he => .pure ?_
      have hassign : AllNames W (Expr.assign left value).given := by
        rw [Expr.given_assign]
        exact hleft.append he
      exact hassign
    exact .ite hvalue ((Draws.report _).bind fun _ _ => hvalue)
  all_goals exact (h.given _).bind fun _ he => .pure (hgiven.append he)

theorem expressions_succ (h : DrawsAt W fuel) (close : TokenKind) :
    (Grammar.expressions (fuel + 1) close).Draws W fun es => AllNames W (Expr.givenIn es) := by
  rw [Grammar.expressions]
  refine Draws.peek.bind fun _ _ => .ite (Draws.next.bind fun _ _ => .pure .nil) ?_
  refine (h.given _).bind fun _ he => h.moreExpressions.bind fun _ hes => ?_
  have hclose : (Step.expect close () fun _ => pure ()).Draws W fun _ => True :=
    .expect trivial fun _ _ => .pure trivial
  exact hclose.bind fun _ _ => .pure (he.append hes)

theorem moreExpressions_succ (h : DrawsAt W fuel) :
    (Grammar.moreExpressions (fuel + 1)).Draws W fun es => AllNames W (Expr.givenIn es) := by
  rw [Grammar.moreExpressions]
  refine Draws.peek.bind fun _ _ => .ite (Draws.next.bind fun _ _ => ?_) (.pure .nil)
  exact (h.given _).bind fun _ he => h.moreExpressions.bind fun _ hes => .pure (he.append hes)

theorem pairs_succ (h : DrawsAt W fuel) :
    (Grammar.pairs (fuel + 1)).Draws W fun r => ∀ ps ∈ r, AllNames W (Expr.givenInPairs ps) := by
  rw [Grammar.pairs]
  refine Draws.peek.bind fun _ _ => .ite (.pure (forall_mem_some .nil)) ?_
  refine (h.given _).bind fun key hkey => .expect forall_mem_none fun _ _ => ?_
  refine (h.given _).bind fun value hvalue => ?_
  have hpair {ps : List (Expr × Expr)} (hps : AllNames W (Expr.givenInPairs ps)) :
      AllNames W (Expr.givenInPairs ((key, value) :: ps)) := (hkey.append hvalue).append hps
  refine Draws.peek.bind fun _ _ => .ite (.pure (forall_mem_some (hpair .nil))) ?_
  refine .expect forall_mem_none fun _ _ => h.pairs.bind fun _ hps => ?_
  exact .pure (forall_mem_map hps fun _ => hpair)

theorem conditional_succ (h : DrawsAt W fuel) :
    (Grammar.conditional (fuel + 1)).Draws W fun e => AllNames W e.givenAsTarget := by
  rw [Grammar.conditional]
  refine .expect .nil fun _ _ => (h.given _).bind fun condition hcondition => ?_
  refine .expect .nil fun _ _ => .expect .nil fun _ _ => h.block.bind fun b hb => ?_
  refine Draws.peek.bind fun _ _ => .ite (Draws.next.bind fun _ _ => ?_)
    (.pure (hcondition.append hb))
  refine Draws.peek.bind fun _ _ => .ite (Draws.next.bind fun _ _ => ?_) ?_
  · refine h.conditional.bind fun nested hnested => .pure ((hcondition.append hb).append ?_)
    have hgiven : AllNames W nested.given := fun name hname =>
      hnested name (Expr.given_subset_givenAsTarget _ hname)
    exact hgiven.append .nil
  · exact .expect .nil fun _ _ => h.block.bind fun _ hb' =>
      .pure ((hcondition.append hb).append hb')

theorem functionLiteral_succ (h : DrawsAt W fuel) :
    (Grammar.functionLiteral (fuel + 1)).Draws W fun r => ∀ f ∈ r, AllNames W f.given := by
  rw [Grammar.functionLiteral]
  refine .expect forall_mem_none fun _ _ => draws_parameters.bind fun found hfound => ?_
  cases found with
  | none => exact .pure forall_mem_none
  | some params =>
      exact .expect forall_mem_none fun _ _ => h.block.bind fun _ hb =>
        .pure (forall_mem_some ((hfound params rfl).append hb))

/-- Statements behind one that may be missing. -/
theorem allNames_toList_append {s : Option Stmt} (hs : ∀ st ∈ s, AllNames W st.given) {b : Block}
    (hb : AllNames W (Block.given b)) : AllNames W (Block.given (s.toList ++ b)) := by
  rw [Block.given_append]
  refine AllNames.append ?_ hb
  cases s with
  | none => exact .nil
  | some st => exact (hs st rfl).append .nil

theorem block_succ (h : DrawsAt W fuel) :
    (Grammar.block (fuel + 1)).Draws W fun b => AllNames W (Block.given b) := by
  rw [Grammar.block]
  refine Draws.peek.bind fun _ _ => .ite (Draws.next.bind fun _ _ => .pure .nil) (.ite ?_ ?_)
  · exact (Draws.report _).bind fun _ _ => Draws.next.bind fun _ _ => .pure .nil
  · exact h.statement.bind fun _ hs => h.block.bind fun _ hb =>
      .pure (allNames_toList_append hs hb)

theorem expressionStatement_succ (h : DrawsAt W fuel) :
    (Grammar.expressionStatement (fuel + 1)).Draws W fun r => ∀ s ∈ r, AllNames W s.given := by
  rw [Grammar.expressionStatement]
  exact (h.given _).bind fun _ he => Draws.skipSemicolon.bind fun _ _ =>
    .pure (forall_mem_some he)

theorem statement_succ (h : DrawsAt W fuel) :
    (Grammar.statement (fuel + 1)).Draws W fun r => ∀ s ∈ r, AllNames W s.given := by
  rw [Grammar.statement]
  refine Draws.peek.bind fun ahead _ => ?_
  split
  case h_1 =>
    refine Draws.next.bind fun _ _ => .expect forall_mem_none fun name hname => ?_
    refine .expect forall_mem_none fun _ _ => (h.given _).bind fun _ he => ?_
    exact Draws.skipSemicolon.bind fun _ _ => .pure (forall_mem_some (he.cons (hname rfl)))
  case h_2 =>
    refine Draws.next.bind fun _ _ => Draws.peek.bind fun _ _ => .ite ?_ ?_
    · exact Draws.skipSemicolon.bind fun _ _ => .pure (forall_mem_some .nil)
    · exact (h.given _).bind fun _ he => Draws.skipSemicolon.bind fun _ _ =>
        .pure (forall_mem_some he)
  case h_3 => exact Draws.next.bind fun _ _ => h.classDefinition
  case h_4 => exact Draws.next.bind fun _ _ => .pure forall_mem_none
  case h_5 =>
    refine .ofSecond (fun name hname => ?_) h.expressionStatement
    refine h.functionLiteral.bind fun found hfound => ?_
    cases found with
    | none => exact .pure forall_mem_none
    | some literal =>
        exact Draws.skipSemicolon.bind fun _ _ =>
          .pure (forall_mem_some ((hfound literal rfl).cons hname))
  case h_6 => exact h.expressionStatement

theorem classDefinition_succ (h : DrawsAt W fuel) :
    (Grammar.classDefinition (fuel + 1)).Draws W fun r => ∀ s ∈ r, AllNames W s.given := by
  rw [Grammar.classDefinition]
  refine .expect forall_mem_none fun name hname => Draws.peek.bind fun _ _ => .ite ?_ ?_
  · refine Draws.next.bind fun _ _ => .expect forall_mem_none fun parent hparent => ?_
    refine .expect forall_mem_none fun _ _ => h.methods.bind fun _ hms => .pure ?_
    exact forall_mem_map hms fun _ h => (h.cons (hparent rfl)).cons (hname rfl)
  · refine .expect forall_mem_none fun _ _ => h.methods.bind fun _ hms => .pure ?_
    exact forall_mem_map hms fun _ h => h.cons (hname rfl)

theorem methods_succ (h : DrawsAt W fuel) : (Grammar.methods (fuel + 1)).Draws W fun r =>
    ∀ ms ∈ r, AllNames W (FunctionLiteral.givenIn ms) := by
  rw [Grammar.methods]
  refine Draws.next.bind fun t _ => ?_
  split
  case h_1 => exact .pure (forall_mem_some .nil)
  case h_2 => exact (Draws.report _).bind fun _ _ => .pure forall_mem_none
  case h_3 =>
    refine h.method.bind fun first hfirst => h.methods.bind fun _ hms => .pure ?_
    refine forall_mem_map hms fun ms hms => ?_
    rw [FunctionLiteral.givenIn_append]
    refine AllNames.append ?_ hms
    cases first with
    | none => exact .nil
    | some row =>
        obtain ⟨hname, hgiven⟩ := List.forall_mem_cons.mp (hfirst row rfl)
        exact (AllNames.append hgiven .nil).cons hname
  case h_4 => exact h.methods
  case h_5 => exact (Draws.report _).bind fun _ _ => h.methods

theorem method_succ (h : DrawsAt W fuel) : (Grammar.method (fuel + 1)).Draws W fun r =>
    ∀ row ∈ r, AllNames W (row.1 :: row.2.given) := by
  rw [Grammar.method]
  refine .expect forall_mem_none fun name hname => .expect forall_mem_none fun _ _ => ?_
  refine .expect forall_mem_none fun _ _ => h.functionLiteral.bind fun found hfound => ?_
  cases found with
  | none => exact .pure forall_mem_none
  | some literal =>
      exact Draws.skipSemicolon.bind fun _ _ =>
        .pure (forall_mem_some ((hfound literal rfl).cons (hname rfl)))

theorem succ (h : DrawsAt W fuel) : DrawsAt W (fuel + 1) where
  expression := h.expression_succ
  operators := h.operators_succ
  operand := h.operand_succ
  operation := h.operation_succ
  expressions := h.expressions_succ
  moreExpressions := h.moreExpressions_succ
  pairs := h.pairs_succ
  conditional := h.conditional_succ
  functionLiteral := h.functionLiteral_succ
  block := h.block_succ
  statement := h.statement_succ
  expressionStatement := h.expressionStatement_succ
  classDefinition := h.classDefinition_succ
  methods := h.methods_succ
  method := h.method_succ

end DrawsAt

theorem drawsAt (W : String → Prop) (fuel : Nat) : DrawsAt W fuel := by
  induction fuel with
  | zero => exact .zero
  | succ fuel ih => exact ih.succ

theorem draws_program (fuel : Nat) :
    (program fuel).Draws W fun b => AllNames W (Block.given b) := by
  induction fuel with
  | zero => exact .outOfFuel .nil
  | succ fuel ih =>
      rw [Grammar.program]
      refine Draws.peek.bind fun _ _ => .ite (.pure .nil) ?_
      exact (drawsAt W fuel).statement.bind fun _ hs => ih.bind fun _ hb =>
        .pure (DrawsAt.allNames_toList_append hs hb)

end Grammar

/-- The names that a read tree gives are identifiers of its tokens. -/
theorem Reading.given_of_identifiers {ts : List Token} (hts : Identifiers W ts) :
    AllNames W (Block.given (ofTokens ts).program) :=
  (Grammar.draws_program _ ts hts).2

/-- No name that the tree of a text gives is a reserved word, whether the text has faults or
not. -/
theorem Reading.given_ofText (text : String) :
    AllNames (fun name => TokenKind.ofWord name = .ident)
      (Block.given (ofText text).program) := by
  refine given_of_identifiers fun t ht hkind => ?_
  rw [ofWord_of_mem_tokenize ht (.inl hkind), hkind]

end Scripting
