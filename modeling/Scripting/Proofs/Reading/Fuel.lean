import Scripting.Proofs.Reading.Routine

/-!
# Enough fuel

Every loop of the grammar and every expression inside another takes a token or stands at the end of
the tokens. So a call has a size that falls from a grammar function to whatever it calls: there are
fewer tokens ahead by then, or as many and a function further down in the grammar. With more fuel
than its size a call never runs out of it, whatever faults there are, and how much more makes no
difference. `Call.settled` is what it does then. That is the only way to do what the routines say
without any fuel.
-/

namespace Scripting

namespace Step

variable {α β : Type}

/-- On the tokens the two steps do the same, and at most `bound` tokens are left. -/
structure AgreeOn (bound : Nat) (ts : List Token) (x y : Step α) : Prop where
  eq : x ts = y ts
  rest_le : (x ts).rest.length ≤ bound

theorem AgreeOn.bind {bound : Nat} {ts : List Token} {x y : Step α} {f g : α → Step β}
    (hx : x ts = y ts) (hf : AgreeOn bound (x ts).rest (f (x ts).value) (g (x ts).value)) :
    AgreeOn bound ts (x >>= f) (y >>= g) := by
  constructor
  · rw [bind_apply, bind_apply, ← hx, hf.eq]
  · exact hf.rest_le

theorem length_pos_of_aheadKind {ts : List Token} (h : aheadKind ts ≠ .eof) : 0 < ts.length := by
  cases ts with
  | nil => exact absurd rfl h
  | cons t ts => exact Nat.succ_pos _

end Step

namespace Grammar

open Step Precedence

/-- How far up in the grammar a function stands. What it calls before it takes a token stands
further down. -/
def Rule.height : Rule → Nat
  | .operand | .operation => 8
  | .block | .program => 5
  | .statement => 4
  | .expressions | .pairs | .expressionStatement => 3
  | .expression => 2
  | .operators => 1
  | _ => 0

/-- Whether a function takes a token where there is one. -/
def Rule.takes : Rule → Bool
  | .expression | .statement | .expressionStatement => true
  | _ => false

namespace Call

variable {β γ : Type}

/-- The size of a call on tokens, which bounds how deeply its calls nest. -/
def size (c : Call β) (ts : List Token) : Nat :=
  8 * ts.length + c.rule.height

/-- The most tokens that a call leaves. -/
def bound (c : Call β) (ts : List Token) : Nat :=
  if c.rule.takes then ts.length - 1 else ts.length

theorem bound_le (c : Call β) (ts : List Token) : c.bound ts ≤ ts.length := by
  unfold bound
  split
  · exact Nat.sub_le _ _
  · exact Nat.le_refl _

variable {c : Call β} {d : Call γ} {ts us : List Token}

/-- A call with fewer tokens ahead is smaller. -/
theorem size_lt_of_length (hlt : us.length < ts.length)
    (hheight : decide (c.rule.height < d.rule.height + 8) = true) : c.size us < d.size ts := by
  have := of_decide_eq_true hheight
  unfold size
  omega

/-- A call of a function further down in the grammar is smaller. -/
theorem size_lt_of_height (hle : us.length ≤ ts.length)
    (hheight : decide (c.rule.height < d.rule.height) = true) : c.size us < d.size ts := by
  have := of_decide_eq_true hheight
  unfold size
  omega

end Call

namespace Routine

variable {α β : Type}

/-- On the tokens, every call of the routine is smaller than `limit` and at most `bound` tokens are
left, as long as no call leaves more tokens than it may. -/
def Within (limit bound : Nat) : Routine α → List Token → Prop
  | done _, ts => ts.length ≤ bound
  | taking go, ts => (go (Step.next ts).value).Within limit bound (Step.next ts).rest
  | looking go, ts => (go (aheadKind ts)).Within limit bound ts
  | lookingFurther go, ts => (go (aheadKind ts.tail)).Within limit bound ts
  | reporting _ go, ts => go.Within limit bound ts
  | calling c go, ts =>
      c.size ts < limit ∧ ∀ a us, us.length ≤ c.bound ts → (go a).Within limit bound us

namespace Within

variable {limit bound between : Nat} {ts : List Token}

/-- A routine does the same however its calls are answered, as long as those below the limit are
answered alike. -/
theorem agreeOn {r : Routine α} {x y : Answers} (h : r.Within limit bound ts)
    (hcalls : ∀ ⦃β : Type⦄ (c : Call β) us, c.size us < limit →
      AgreeOn (c.bound us) us (x c) (y c)) :
    AgreeOn bound ts (r.run x) (r.run y) := by
  induction r generalizing ts with
  | done a => exact ⟨rfl, h⟩
  | taking go ih | looking go ih | lookingFurther go ih => exact .bind rfl (ih _ h)
  | reporting e go ih => exact .bind rfl (ih h)
  | calling c go ih =>
      have hc := hcalls c ts h.1
      exact .bind hc.eq (ih _ (h.2 _ _ hc.rest_le))

theorem pure (a : α) (h : ts.length ≤ bound) :
    (Pure.pure a : Routine α).Within limit bound ts :=
  h

theorem bind {r : Routine α} {f : α → Routine β} (hr : r.Within limit between ts)
    (hf : ∀ a us, us.length ≤ between → (f a).Within limit bound us) :
    (r >>= f).Within limit bound ts := by
  induction r generalizing ts with
  | done a => exact hf a ts hr
  | taking go ih | looking go ih | lookingFurther go ih => exact ih _ hr
  | reporting e go ih => exact ih hr
  | calling c go ih => exact ⟨hr.1, fun a us hle => ih a (hr.2 a us hle)⟩

/-- A token is taken, at the end of the tokens one that stands for it. -/
theorem nextOrEnd {f : Token → Routine β} (hend : (f ⟨.eof, "", 0⟩).Within limit bound [])
    (h : ∀ t us, us.length < ts.length → (f t).Within limit bound us) :
    (next >>= f).Within limit bound ts := by
  cases ts with
  | nil => exact hend
  | cons t ts => exact h t ts (Nat.lt_succ_self _)

/-- A token is taken or stands for the end, and fewer than `n` tokens are left. -/
theorem nextWithin {f : Token → Routine β} {n : Nat} (hn : 0 < n) (hts : ts.length ≤ n)
    (h : ∀ t us, us.length < n → (f t).Within limit bound us) :
    (next >>= f).Within limit bound ts :=
  .nextOrEnd (h _ [] hn) fun t us hlt => h t us (Nat.lt_of_lt_of_le hlt hts)

theorem nextAny {f : Token → Routine β}
    (h : ∀ t us, us.length ≤ ts.length → (f t).Within limit bound us) :
    (next >>= f).Within limit bound ts :=
  .nextOrEnd (h _ [] (Nat.zero_le _)) fun t us hlt => h t us (Nat.le_of_lt hlt)

/-- A token is there and is taken. -/
theorem next {f : Token → Routine β} (hts : aheadKind ts ≠ .eof)
    (h : ∀ t us, us.length < ts.length → (f t).Within limit bound us) :
    (Routine.next >>= f).Within limit bound ts :=
  .nextWithin (length_pos_of_aheadKind hts) (Nat.le_refl _) h

theorem peek {f : TokenKind → Routine β} (h : (f (aheadKind ts)).Within limit bound ts) :
    (Routine.peek >>= f).Within limit bound ts :=
  h

theorem peekSecond {f : TokenKind → Routine β}
    (h : (f (aheadKind ts.tail)).Within limit bound ts) :
    (Routine.peekSecond >>= f).Within limit bound ts :=
  h

theorem report (e : SyntaxError) {f : Unit → Routine β} (h : (f ()).Within limit bound ts) :
    (Routine.report e >>= f).Within limit bound ts :=
  h

theorem ite {p : Prop} [Decidable p] {r s : Routine α} (hr : p → r.Within limit bound ts)
    (hs : ¬p → s.Within limit bound ts) : (if p then r else s).Within limit bound ts := by
  split
  · next h => exact hr h
  · next h => exact hs h

theorem expect {wanted : TokenKind} (hwanted : wanted ≠ .eof) {absent : α}
    {found : String → Routine α} (hts : ts.length ≤ bound)
    (h : ∀ s us, us.length < ts.length → (found s).Within limit bound us) :
    (Routine.expect wanted absent found).Within limit bound ts := by
  refine .peek (.ite (fun hahead => ?_) fun _ => .report _ (.pure _ hts))
  exact .next (hahead ▸ hwanted) fun t us hlt => h t.literal us hlt

theorem skipSemicolon : Routine.skipSemicolon.Within limit ts.length ts := by
  refine .peek (.ite (fun hahead => ?_) fun _ => .pure _ (Nat.le_refl _))
  exact .next (by rw [hahead]; decide) fun _ us hlt => .pure _ (Nat.le_of_lt hlt)

theorem callAsIs {c : Call β} (hsize : c.size ts < limit) (hbound : c.bound ts ≤ bound) :
    (Routine.call c).Within limit bound ts :=
  ⟨hsize, fun _ _ hle => .pure _ (Nat.le_trans hle hbound)⟩

theorem call {c : Call β} (hsize : c.size ts < limit) (hts : ts.length ≤ bound) :
    (Routine.call c).Within limit bound ts :=
  .callAsIs hsize (Nat.le_trans (c.bound_le ts) hts)

/-- A call of a function that takes a token where there is one. -/
theorem callTaking {c : Call β} {f : β → Routine α} (htakes : c.rule.takes = true)
    (hsize : c.size ts < limit)
    (h : ∀ a us, us.length ≤ ts.length - 1 → (f a).Within limit bound us) :
    (Routine.call c >>= f).Within limit bound ts :=
  ⟨hsize, fun a us hle => h a us (by rwa [Call.bound, if_pos htakes] at hle)⟩

theorem callThen {c : Call β} {f : β → Routine α} (hsize : c.size ts < limit)
    (h : ∀ a us, us.length ≤ ts.length → (f a).Within limit bound us) :
    (Routine.call c >>= f).Within limit bound ts :=
  ⟨hsize, fun a us hle => h a us (Nat.le_trans hle (c.bound_le ts))⟩

/-- What is done next may depend on whether something was found. -/
theorem callFound {c : Call (Option β)} {f : Option β → Routine α} (hsize : c.size ts < limit)
    (hnone : ∀ us, us.length ≤ ts.length → (f none).Within limit bound us)
    (hsome : ∀ a us, us.length ≤ ts.length → (f (some a)).Within limit bound us) :
    (Routine.call c >>= f).Within limit bound ts := by
  refine .callThen hsize fun found us hle => ?_
  cases found with
  | none => exact hnone us hle
  | some a => exact hsome a us hle

end Within

end Routine

namespace Call

variable {β : Type} (ts : List Token)

open Routine

theorem within_expression (precedence : Nat) (h : lowest ≤ precedence) :
    (expression precedence h).routine.Within ((expression precedence h).size ts)
      (ts.length - 1) ts := by
  rw [routine]
  refine .nextOrEnd (.report _ (.pure _ (Nat.zero_le _))) fun t us hlt => ?_
  refine .ite (fun _ => ?_) fun _ => .report _ (.pure _ (by omega))
  refine .callThen (size_lt_of_length hlt rfl) fun left vs hle => ?_
  exact .call (size_lt_of_length (by omega) rfl) (by omega)

theorem within_operators (precedence : Nat) (h : lowest ≤ precedence) (left : Expr) :
    (operators precedence h left).routine.Within ((operators precedence h left).size ts)
      ts.length ts := by
  rw [routine]
  refine .peek (.ite (fun hahead => ?_) fun _ => .pure _ (Nat.le_refl _))
  -- The end of the tokens binds no tighter than anything, so it is not taken for an operator.
  have hts : aheadKind ts ≠ .eof := by
    intro hend
    rw [hend] at hahead
    exact Nat.not_lt_of_le h hahead
  refine .next hts fun t us hlt => ?_
  refine .callThen (size_lt_of_length hlt rfl) fun whole vs hle => ?_
  exact .call (size_lt_of_length (by omega) rfl) (by omega)

theorem within_integerRoutine {limit : Nat} (literal : String) :
    (integerRoutine literal).Within limit ts.length ts := by
  have hend (e : Expr) : (pure e : Routine Expr).Within limit ts.length ts :=
    .pure e (Nat.le_refl _)
  exact .ite (fun _ => .report _ (hend _)) fun _ => .ite (fun _ => .report _ (hend _)) fun _ =>
    hend _

theorem within_operand (t : Token) :
    (operand t).routine.Within ((operand t).size ts) ts.length ts := by
  have hrefl : ts.length ≤ ts.length := Nat.le_refl _
  have hexpression (p : Nat) (hp : lowest ≤ p) :
      (expression p hp).size ts < (operand t).size ts :=
    size_lt_of_height hrefl rfl
  rw [routine]
  split
  case h_2 => exact within_integerRoutine ts _
  case h_9 => exact .callTaking rfl (hexpression _ _) fun _ us hle => .pure _ (by omega)
  case h_10 => exact .callTaking rfl (hexpression _ _) fun _ us hle => .pure _ (by omega)
  case h_11 =>
    refine .callTaking rfl (hexpression _ _) fun _ us hle => ?_
    exact .expect (by decide) (by omega) fun _ vs hlt => .pure _ (by omega)
  case h_12 => exact .call (size_lt_of_height hrefl rfl) hrefl
  case h_13 => exact .callThen (size_lt_of_height hrefl rfl) fun _ us hle => .pure _ hle
  case h_14 =>
    refine .expect (by decide) hrefl fun _ us hlt => ?_
    exact .callThen (size_lt_of_length hlt rfl) fun _ vs hle => .pure _ (by omega)
  case h_15 => exact .callThen (size_lt_of_height hrefl rfl) fun _ us hle => .pure _ hle
  case h_16 =>
    refine .callFound (size_lt_of_height hrefl rfl) (fun us hle => .pure _ hle) ?_
    exact fun rows us hle => .expect (by decide) hle fun _ vs hlt => .pure _ (by omega)
  case h_17 =>
    refine .expect (by decide) hrefl fun _ us hlt => ?_
    refine .expect (by decide) (by omega) fun _ vs hlt' => ?_
    exact .callThen (size_lt_of_length (by omega) rfl) fun _ ws hle => .pure _ (by omega)
  all_goals exact .pure _ hrefl

theorem within_operation (left : Expr) (t : Token) :
    (operation left t).routine.Within ((operation left t).size ts) ts.length ts := by
  have hrefl : ts.length ≤ ts.length := Nat.le_refl _
  have hexpression (p : Nat) (hp : lowest ≤ p) :
      (expression p hp).size ts < (operation left t).size ts :=
    size_lt_of_height hrefl rfl
  rw [routine]
  split
  case h_3 => exact .callThen (size_lt_of_height hrefl rfl) fun _ us hle => .pure _ hle
  case h_4 =>
    refine .callTaking rfl (hexpression _ _) fun _ us hle => ?_
    exact .expect (by decide) (by omega) fun _ vs hlt => .pure _ (by omega)
  case h_5 => exact .expect (by decide) hrefl fun _ us hlt => .pure _ (Nat.le_of_lt hlt)
  case h_6 =>
    have hvalue : (anyExpression >>= fun value => pure (Expr.assign left value)).Within
        ((operation left t).size ts) ts.length ts :=
      .callTaking rfl (hexpression _ _) fun _ us hle => .pure _ (by omega)
    exact .ite (fun _ => hvalue) fun _ => .report _ hvalue
  all_goals exact .callTaking rfl (hexpression _ _) fun _ us hle => .pure _ (by omega)

theorem within_expressions (close : TokenKind) :
    (expressions close).routine.Within ((expressions close).size ts) ts.length ts := by
  rw [routine]
  refine .peek (.ite (fun _ => .nextAny fun _ us hle => .pure _ hle) fun _ => ?_)
  refine .callTaking rfl (size_lt_of_height (Nat.le_refl _) rfl) fun _ us hle => ?_
  refine .callThen (size_lt_of_height (by omega) rfl) fun _ vs hle' => ?_
  have hclose : (Routine.expect close () fun _ => pure ()).Within
      ((expressions close).size ts) vs.length vs :=
    .peek (.ite (fun _ => .nextAny fun _ ws hle => .pure _ hle) fun _ =>
      .report _ (.pure _ (Nat.le_refl _)))
  exact .bind hclose fun _ ws hle => .pure _ (by omega)

theorem within_moreExpressions :
    moreExpressions.routine.Within (moreExpressions.size ts) ts.length ts := by
  rw [routine]
  refine .peek (.ite (fun hahead => ?_) fun _ => .pure _ (Nat.le_refl _))
  refine .next (by rw [hahead]; decide) fun _ us hlt => ?_
  refine .callTaking rfl (size_lt_of_length hlt rfl) fun _ vs hle => ?_
  exact .callThen (size_lt_of_length (by omega) rfl) fun _ ws hle => .pure _ (by omega)

theorem within_pairs : pairs.routine.Within (pairs.size ts) ts.length ts := by
  rw [routine]
  refine .peek (.ite (fun _ => .pure _ (Nat.le_refl _)) fun hahead => ?_)
  refine .callTaking rfl (size_lt_of_height (Nat.le_refl _) rfl) fun _ us hle => ?_
  refine .expect (by decide) (by omega) fun _ vs hlt => ?_
  refine .callTaking rfl (size_lt_of_length (by omega) rfl) fun _ ws hle' => ?_
  refine .peek (.ite (fun _ => .pure _ (by omega)) fun _ => ?_)
  refine .expect (by decide) (by omega) fun _ xs hlt' => ?_
  exact .callThen (size_lt_of_length (by omega) rfl) fun _ ys hle => .pure _ (by omega)

theorem within_conditional :
    conditional.routine.Within (conditional.size ts) ts.length ts := by
  rw [routine]
  refine .expect (by decide) (Nat.le_refl _) fun _ us hlt => ?_
  refine .callTaking rfl (size_lt_of_length hlt rfl) fun _ vs hle => ?_
  refine .expect (by decide) (by omega) fun _ ws hlt' => ?_
  refine .expect (by decide) (by omega) fun _ xs hlt'' => ?_
  refine .callThen (size_lt_of_length (by omega) rfl) fun _ ys hle' => ?_
  refine .peek (.ite (fun hahead => ?_) fun _ => .pure _ (by omega))
  refine .next (by rw [hahead]; decide) fun _ zs hlt₃ => ?_
  refine .peek (.ite (fun hahead => ?_) fun _ => ?_)
  · refine .next (by rw [hahead]; decide) fun _ us' hlt₄ => ?_
    exact .callThen (size_lt_of_length (by omega) rfl) fun _ vs' hle => .pure _ (by omega)
  · refine .expect (by decide) (by omega) fun _ us' hlt₄ => ?_
    exact .callThen (size_lt_of_length (by omega) rfl) fun _ vs' hle => .pure _ (by omega)

theorem within_parameters : parameters.routine.Within (parameters.size ts) ts.length ts := by
  rw [routine]
  refine .peek (.ite (fun hahead => ?_) fun _ => ?_)
  · exact .next (by rw [hahead]; decide) fun _ us hlt => .pure _ (Nat.le_of_lt hlt)
  · refine .expect (by decide) (Nat.le_refl _) fun _ us hlt => ?_
    exact .callThen (size_lt_of_length hlt rfl) fun _ vs hle => .pure _ (by omega)

theorem within_moreParameters :
    moreParameters.routine.Within (moreParameters.size ts) ts.length ts := by
  rw [routine]
  refine .peek (.ite (fun hahead => ?_) fun _ => ?_)
  · refine .next (by rw [hahead]; decide) fun _ us hlt => ?_
    refine .expect (by decide) (Nat.le_of_lt hlt) fun _ vs hlt' => ?_
    exact .callThen (size_lt_of_length (by omega) rfl) fun _ ws hle => .pure _ (by omega)
  · exact .expect (by decide) (Nat.le_refl _) fun _ us hlt => .pure _ (Nat.le_of_lt hlt)

theorem within_functionLiteral :
    functionLiteral.routine.Within (functionLiteral.size ts) ts.length ts := by
  rw [routine]
  refine .expect (by decide) (Nat.le_refl _) fun _ us hlt => ?_
  refine .callFound (size_lt_of_length hlt rfl) (fun vs hle => .pure _ (by omega)) ?_
  intro params vs hle
  refine .expect (by decide) (by omega) fun _ ws hlt' => ?_
  exact .callThen (size_lt_of_length (by omega) rfl) fun _ xs hle => .pure _ (by omega)

theorem within_block : block.routine.Within (block.size ts) ts.length ts := by
  rw [routine]
  refine .peek (.ite (fun _ => ?_) fun _ => .ite (fun _ => ?_) fun hend => ?_)
  · exact .nextAny fun _ us hle => .pure _ hle
  · exact .report _ (.nextAny fun _ us hle => .pure _ hle)
  · have hpos := length_pos_of_aheadKind hend
    refine .callTaking rfl (size_lt_of_height (Nat.le_refl _) rfl) fun _ us hle => ?_
    exact .callThen (size_lt_of_length (by omega) rfl) fun _ vs hle => .pure _ (by omega)

theorem within_statement : statement.routine.Within (statement.size ts) (ts.length - 1) ts := by
  have hvalue {us : List Token} {value : Expr → Stmt} (hlt : us.length < ts.length) :
      (anyExpression >>= fun e => Routine.skipSemicolon >>= fun _ =>
        pure (some (value e))).Within (statement.size ts) (ts.length - 1) us := by
    refine .callTaking rfl (size_lt_of_length hlt rfl) fun _ vs hle => ?_
    exact .bind .skipSemicolon fun _ ws hle => .pure _ (by omega)
  rw [routine]
  refine .peek ?_
  split
  case h_1 hahead =>
    refine .next (by rw [hahead]; decide) fun _ us hlt => ?_
    refine .expect (by decide) (by omega) fun _ vs hlt' => ?_
    exact .expect (by decide) (by omega) fun _ ws hlt'' => hvalue (by omega)
  case h_2 hahead =>
    refine .next (by rw [hahead]; decide) fun _ us hlt => ?_
    refine .peek (.ite (fun _ => ?_) fun _ => hvalue hlt)
    exact .bind .skipSemicolon fun _ vs hle => .pure _ (by omega)
  case h_3 hahead =>
    refine .next (by rw [hahead]; decide) fun _ us hlt => ?_
    exact .call (size_lt_of_length hlt rfl) (by omega)
  case h_4 hahead =>
    exact .next (by rw [hahead]; decide) fun _ us hlt => .pure _ (by omega)
  case h_5 hahead =>
    refine .peekSecond (.ite (fun _ => ?_) fun _ => ?_)
    · have hpos : 0 < ts.length := length_pos_of_aheadKind (by rw [hahead]; decide)
      refine .next (by rw [hahead]; decide) fun _ us hlt => ?_
      refine .nextWithin hpos (Nat.le_of_lt hlt) fun name vs hlt' => ?_
      refine .callFound (size_lt_of_length hlt' rfl) (fun ws hle => .pure _ (by omega)) ?_
      exact fun literal ws hle => .bind .skipSemicolon fun _ xs hle => .pure _ (by omega)
    · exact .callAsIs (size_lt_of_height (Nat.le_refl _) rfl) (Nat.le_refl _)
  case h_6 => exact .callAsIs (size_lt_of_height (Nat.le_refl _) rfl) (Nat.le_refl _)

theorem within_expressionStatement :
    expressionStatement.routine.Within (expressionStatement.size ts) (ts.length - 1) ts := by
  rw [routine]
  refine .callTaking rfl (size_lt_of_height (Nat.le_refl _) rfl) fun _ us hle => ?_
  exact .bind .skipSemicolon fun _ vs hle => .pure _ (by omega)

theorem within_classDefinition :
    classDefinition.routine.Within (classDefinition.size ts) ts.length ts := by
  rw [routine]
  refine .expect (by decide) (Nat.le_refl _) fun _ us hlt => ?_
  refine .peek (.ite (fun hahead => ?_) fun _ => ?_)
  · refine .next (by rw [hahead]; decide) fun _ vs hlt' => ?_
    refine .expect (by decide) (by omega) fun _ ws hlt'' => ?_
    refine .expect (by decide) (by omega) fun _ xs hlt₃ => ?_
    exact .callThen (size_lt_of_length (by omega) rfl) fun _ ys hle => .pure _ (by omega)
  · refine .expect (by decide) (by omega) fun _ vs hlt' => ?_
    exact .callThen (size_lt_of_length (by omega) rfl) fun _ ws hle => .pure _ (by omega)

theorem within_methods : methods.routine.Within (methods.size ts) ts.length ts := by
  rw [routine]
  refine .nextOrEnd (.report _ (.pure _ (Nat.zero_le _))) fun t us hlt => ?_
  have hmore : (call methods).Within (methods.size ts) ts.length us :=
    .call (size_lt_of_length hlt rfl) (Nat.le_of_lt hlt)
  split
  case h_1 => exact .pure _ (by omega)
  case h_2 => exact .report _ (.pure _ (by omega))
  case h_3 =>
    refine .callThen (size_lt_of_length hlt rfl) fun _ vs hle => ?_
    exact .callThen (size_lt_of_length (by omega) rfl) fun _ ws hle => .pure _ (by omega)
  case h_4 => exact hmore
  case h_5 => exact .report _ hmore

theorem within_method : method.routine.Within (method.size ts) ts.length ts := by
  rw [routine]
  refine .expect (by decide) (Nat.le_refl _) fun _ us hlt => ?_
  refine .expect (by decide) (by omega) fun _ vs hlt' => ?_
  refine .expect (by decide) (by omega) fun _ ws hlt'' => ?_
  refine .callFound (size_lt_of_length (by omega) rfl) (fun xs hle => .pure _ (by omega)) ?_
  exact fun literal xs hle => .bind .skipSemicolon fun _ ys hle => .pure _ (by omega)

theorem within_program : program.routine.Within (program.size ts) ts.length ts := by
  rw [routine]
  refine .peek (.ite (fun _ => .pure _ (Nat.le_refl _)) fun hend => ?_)
  have hpos := length_pos_of_aheadKind hend
  refine .callTaking rfl (size_lt_of_height (Nat.le_refl _) rfl) fun _ us hle => ?_
  exact .callThen (size_lt_of_length (by omega) rfl) fun _ vs hle => .pure _ (by omega)

/-- A grammar function calls nothing as large as itself, and leaves no more tokens than it may. -/
theorem within (c : Call β) : c.routine.Within (c.size ts) (c.bound ts) ts := by
  cases c with
  | expression precedence h => exact within_expression ts precedence h
  | operators precedence h left => exact within_operators ts precedence h left
  | operand first => exact within_operand ts first
  | operation left operator => exact within_operation ts left operator
  | expressions close => exact within_expressions ts close
  | moreExpressions => exact within_moreExpressions ts
  | pairs => exact within_pairs ts
  | conditional => exact within_conditional ts
  | parameters => exact within_parameters ts
  | moreParameters => exact within_moreParameters ts
  | functionLiteral => exact within_functionLiteral ts
  | block => exact within_block ts
  | statement => exact within_statement ts
  | expressionStatement => exact within_expressionStatement ts
  | classDefinition => exact within_classDefinition ts
  | methods => exact within_methods ts
  | method => exact within_method ts
  | program => exact within_program ts

/-- A call with more fuel than its size does the same with one unit more. -/
theorem agreeOn_answer_succ (fuel : Nat) (c : Call β) (hfuel : c.size ts < fuel) :
    AgreeOn (c.bound ts) ts (c.answer fuel) (c.answer (fuel + 1)) := by
  induction fuel generalizing β ts with
  | zero => exact absurd hfuel (Nat.not_lt_zero _)
  | succ fuel ih =>
      rw [answer_succ, answer_succ]
      exact (within ts c).agreeOn fun _ d us hlt => ih us d (by omega)

variable {ts} {fuel more : Nat} {c : Call β}

theorem answer_eq_of_le (hfuel : c.size ts < fuel) (hle : fuel ≤ more) :
    c.answer fuel ts = c.answer more ts := by
  induction hle with
  | refl => rfl
  | step hle ih => exact ih.trans (agreeOn_answer_succ ts _ c (Nat.lt_of_lt_of_le hfuel hle)).eq

/-- What a call does that does not run out of fuel. -/
def settled ⦃β : Type⦄ (c : Call β) : Step β := fun ts =>
  c.answer (c.size ts + 1) ts

theorem answer_eq_settled (hfuel : c.size ts < fuel) : c.answer fuel ts = c.settled ts :=
  (answer_eq_of_le (Nat.lt_succ_self _) hfuel).symm

theorem rest_settled_le (c : Call β) (ts : List Token) :
    (c.settled ts).rest.length ≤ c.bound ts :=
  (agreeOn_answer_succ ts _ c (Nat.lt_succ_self _)).rest_le

/-- The routines say what the calls do, with no fuel left to speak of. -/
theorem settled_eq_run (c : Call β) : c.settled = c.routine.run settled := by
  funext ts
  rw [settled, answer_succ]
  refine ((within ts c).agreeOn fun _ d us hlt => ?_).eq
  have hd : d.answer (c.size ts) us = d.settled us := answer_eq_settled hlt
  exact ⟨hd, hd ▸ rest_settled_le d us⟩

/-- Nothing else does what the routines say. -/
theorem eq_settled {answer : Answers}
    (hanswer : ∀ ⦃β : Type⦄ (c : Call β), answer c = c.routine.run answer) (c : Call β) :
    answer c = c.settled := by
  have hbelow : ∀ n, ∀ ⦃β : Type⦄ (c : Call β) ts, c.size ts < n →
      answer c ts = c.settled ts := by
    intro n
    induction n with
    | zero => exact fun _ _ _ h => absurd h (Nat.not_lt_zero _)
    | succ n ih =>
        intro β c ts hn
        rw [hanswer, settled_eq_run]
        refine ((within ts c).agreeOn fun _ d us hlt => ?_).eq.symm
        exact ⟨(ih d us (by omega)).symm, rest_settled_le d us⟩
  exact funext fun ts => hbelow _ c ts (Nat.lt_succ_self _)

end Call

end Grammar

namespace Reading

open Grammar

theorem ofTokens_eq_settled (ts : List Token) :
    ofTokens ts = ⟨(Call.program.settled ts).value, (Call.program.settled ts).errors⟩ := by
  have hfuel : Call.program.size ts < fuelFor ts := by
    change 8 * ts.length + 5 < 8 * ts.length + 8
    omega
  rw [← Call.answer_eq_settled hfuel]
  rfl

/-- A token list is read as by any amount of fuel that is enough for it. -/
theorem ofTokens_eq_program {fuel : Nat} {ts : List Token} (hfuel : 8 * ts.length + 5 < fuel) :
    ofTokens ts = ⟨(Grammar.program fuel ts).value, (Grammar.program fuel ts).errors⟩ := by
  have hsettled : Call.program.answer fuel ts = Call.program.settled ts :=
    Call.answer_eq_settled hfuel
  rw [ofTokens_eq_settled, ← hsettled]
  rfl

end Reading

end Scripting
