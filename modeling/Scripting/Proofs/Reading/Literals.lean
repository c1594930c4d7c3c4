import Scripting.Proofs.Reading.Extent
import Scripting.Proofs.Reading.Position
import Scripting.Proofs.Reading.Soundness
import Scripting.Proofs.Token.Join

/-!
# Integer literals and the course of a reading

How integers are spelled does not change what is read as what. Two token lists that differ in the
spelling of their integers are read along the same course: where one reading takes an integer for an
operand the other does, and each records what is wrong with the literal and goes on. All other
errors are the same in both. A reading without such errors leaves out none of the integers.

`Mark` is what a reading comes across on its way, `Step.Parallel` relates what two steps of the
readings do.
-/

namespace Scripting

/-- The token with another spelling, if it is an integer. -/
def Token.respell (f : String → String) (t : Token) : Token :=
  if t.kind = .int then { t with literal := f t.literal } else t

theorem Token.respell_of_ne {f : String → String} {t : Token} (h : t.kind ≠ .int) :
    t.respell f = t :=
  if_neg h

@[simp] theorem Token.kind_respell (f : String → String) (t : Token) :
    (t.respell f).kind = t.kind := by
  unfold respell
  split <;> rfl

/-- What is wrong with an integer literal. -/
def literalFault? (literal : String) : Option SyntaxError :=
  if digitLimit < (literalDigits literal).length then
    some (.literalTooLong (literalDigits literal).length)
  else if largestInteger < literalValue literal then some (.integerTooLarge literal)
  else none

namespace SyntaxError

/-- The error without the printed form of an expression, which repeats integers as they are
spelled. -/
def bare : SyntaxError → SyntaxError
  | invalidTarget _ => invalidTarget ""
  | e => e

/-- Whether an error is about an integer literal. -/
def blamesLiteral : SyntaxError → Bool
  | integerTooLarge _ | literalTooLong _ => true
  | _ => false

theorem blamesLiteral_of_literalFault {literal : String} {e : SyntaxError}
    (h : literalFault? literal = some e) : e.blamesLiteral = true := by
  unfold literalFault? at h
  split at h
  · cases h
    rfl
  · split at h <;> cases h
    rfl

end SyntaxError

/-- No fault of a literal repeats how an expression is printed. -/
theorem map_bare_literalFault (literal : String) :
    (literalFault? literal).toList.map SyntaxError.bare = (literalFault? literal).toList := by
  unfold literalFault?
  split
  · rfl
  · split <;> rfl

/-- What a reading comes across: an integer literal that it takes for an operand, or an error that
has nothing to do with literals. -/
inductive Mark where
  | literal (t : Token)
  | fault (e : SyntaxError)

namespace Mark

/-- The errors that are recorded at a mark, where integers are spelled as `f` says. -/
def errors (f : String → String) : Mark → List SyntaxError
  | literal t => (literalFault? (f t.literal)).toList
  | fault e => [e]

def literal? : Mark → Option Token
  | literal t => some t
  | fault _ => none

end Mark

/-- The integer tokens of a list. -/
def integerTokens (ts : List Token) : List Token :=
  ts.filter fun t => t.kind = .int

theorem integerTokens_append (ts us : List Token) :
    integerTokens (ts ++ us) = integerTokens ts ++ integerTokens us :=
  List.filter_append ts us

theorem integerTokens_cons_of_ne {t : Token} (ts : List Token) (ht : t.kind ≠ .int) :
    integerTokens (t :: ts) = integerTokens ts :=
  List.filter_cons_of_neg (by simpa using ht)

/-- The marks may be those of a reading that took the tokens: their literals are integers of these
tokens in their order, and all of them unless there are faults. -/
structure Marks (taken : List Token) (marks : List Mark) : Prop where
  literals : (marks.filterMap Mark.literal?).Sublist (integerTokens taken)
  faults : ∀ e, Mark.fault e ∈ marks → e.blamesLiteral = false
  all : (∀ e, Mark.fault e ∉ marks) → marks.filterMap Mark.literal? = integerTokens taken

namespace Marks

theorem nil : Marks [] [] :=
  ⟨List.nil_sublist _, nofun, fun _ => rfl⟩

theorem literal {t : Token} (ht : t.kind = .int) : Marks [t] [.literal t] := by
  have hkept : integerTokens [t] = [t] := List.filter_cons_of_pos (by simpa using ht)
  refine ⟨?_, fun e he => ?_, fun _ => hkept.symm⟩
  · rw [hkept]
    exact List.Sublist.refl [t]
  · cases List.mem_singleton.mp he

theorem fault (taken : List Token) {e : SyntaxError} (he : e.blamesLiteral = false) :
    Marks taken [.fault e] := by
  refine ⟨List.nil_sublist _, fun e' h => ?_, fun h => absurd List.mem_cons_self (h e)⟩
  cases List.mem_singleton.mp h
  exact he

variable {taken taken' : List Token} {marks marks' : List Mark}

theorem append (h : Marks taken marks) (h' : Marks taken' marks') :
    Marks (taken ++ taken') (marks ++ marks') := by
  refine ⟨?_, fun e he => ?_, fun hnone => ?_⟩
  · rw [List.filterMap_append, integerTokens_append]
    exact h.literals.append h'.literals
  · exact (List.mem_append.mp he).elim (h.faults e) (h'.faults e)
  · rw [List.filterMap_append, integerTokens_append,
      h.all fun e he => hnone e (List.mem_append_left _ he),
      h'.all fun e he => hnone e (List.mem_append_right _ he)]

theorem cons {t : Token} (ht : t.kind ≠ .int) (h : Marks taken marks) :
    Marks (t :: taken) marks := by
  constructor
  · rw [integerTokens_cons_of_ne taken ht]
    exact h.literals
  · exact h.faults
  · rw [integerTokens_cons_of_ne taken ht]
    exact h.all

end Marks

/-! ### Parallel steps -/

/-- Values of which a reading looks at nothing. -/
def Unread {α : Type} (_ _ : α) : Prop := True

/-- Expressions of which both or neither can be assigned to. -/
def Expr.AlikeTarget (left right : Expr) : Prop :=
  left.isAssignable = right.isAssignable

/-- Values of which both or neither are there. -/
def BothRead {α : Type} (left right : Option α) : Prop :=
  left.isSome = right.isSome

instance {α : Type} : Std.Refl (@Unread α) := ⟨fun _ => trivial⟩

instance : Std.Refl Expr.AlikeTarget := ⟨fun _ => rfl⟩

instance {α : Type} : Std.Refl (@BothRead α) := ⟨fun _ => rfl⟩

namespace Step

variable {α β : Type}

/-- On tokens and on the same tokens with other spellings of their integers, two steps take as many
tokens, come across the same marks and give values in relation to each other. The marks may be on
tokens that were taken before. -/
def ParallelOn (f : String → String) (before : List Token) (R : α → α → Prop) (x y : Step α)
    (ts : List Token) : Prop :=
  ∃ taken marks, Marks (before ++ taken) marks ∧ ts = taken ++ (x ts).rest ∧
    (y (ts.map (Token.respell f))).rest = (x ts).rest.map (Token.respell f) ∧
    (x ts).errors.map SyntaxError.bare = marks.flatMap (Mark.errors id) ∧
    (y (ts.map (Token.respell f))).errors.map SyntaxError.bare = marks.flatMap (Mark.errors f) ∧
    R (x ts).value (y (ts.map (Token.respell f))).value

/-- Two steps go the same way, wherever the spelling of integers alone tells their tokens apart. -/
def Parallel (f : String → String) (before : List Token) (R : α → α → Prop) (x y : Step α) :
    Prop :=
  ∀ ts, ParallelOn f before R x y ts

theorem aheadKind_respell (f : String → String) (ts : List Token) :
    aheadKind (ts.map (Token.respell f)) = aheadKind ts := by
  cases ts with
  | nil => rfl
  | cons t ts => exact Token.kind_respell f t

section

variable {f : String → String} {before : List Token} {R : α → α → Prop} {S : β → β → Prop}
  {x y : Step α}

/-- Taking a token that is no integer. -/
theorem ParallelOn.next {g k : Token → Step β} {ts : List Token} (hts : aheadKind ts ≠ .int)
    (h : ∀ t, ParallelOn f [] S (g t) (k t) ts.tail) :
    ParallelOn f [] S (Step.next >>= g) (Step.next >>= k) ts := by
  cases ts with
  | nil => exact h ⟨.eof, "", 0⟩
  | cons t ts =>
      obtain ⟨taken, marks, hmarks, htaken, hrest⟩ := h t
      refine ⟨t :: taken, marks, hmarks.cons hts, congrArg (t :: ·) htaken, ?_⟩
      rw [List.map_cons, Token.respell_of_ne hts]
      exact hrest

/-- Looking ahead shows the same to both. -/
theorem ParallelOn.peek {g k : TokenKind → Step β} {ts : List Token}
    (h : ParallelOn f before S (g (aheadKind ts)) (k (aheadKind ts)) ts) :
    ParallelOn f before S (Step.peek >>= g) (Step.peek >>= k) ts := by
  obtain ⟨taken, marks, hmarks, hrest⟩ := h
  refine ⟨taken, marks, hmarks, ?_⟩
  rw [bind_apply, bind_apply, peek_apply, peek_apply, aheadKind_respell]
  exact hrest

theorem ParallelOn.peekSecond {g k : TokenKind → Step β} {ts : List Token}
    (h : ParallelOn f before S (g (aheadKind ts.tail)) (k (aheadKind ts.tail)) ts) :
    ParallelOn f before S (Step.peekSecond >>= g) (Step.peekSecond >>= k) ts := by
  obtain ⟨taken, marks, hmarks, hrest⟩ := h
  refine ⟨taken, marks, hmarks, ?_⟩
  rw [bind_apply, bind_apply, peekSecond_apply, peekSecond_apply, ← List.map_tail,
    aheadKind_respell]
  exact hrest

theorem ParallelOn.bind {g k : α → Step β} {ts : List Token} (hx : ParallelOn f before R x y ts)
    (hg : ∀ a b, R a b → ParallelOn f [] S (g a) (k b) (x ts).rest) :
    ParallelOn f before S (x >>= g) (y >>= k) ts := by
  obtain ⟨taken, marks, hmarks, htaken, hrest, herrors, herrors', hvalue⟩ := hx
  obtain ⟨taken', marks', hmarks', htaken', hrest', hmore, hmore', hvalue'⟩ := hg _ _ hvalue
  refine ⟨taken ++ taken', marks ++ marks', ?_, ?_, ?_, ?_, ?_, ?_⟩
  · rw [← List.append_assoc]
    exact hmarks.append hmarks'
  · rw [bind_apply, List.append_assoc, ← htaken', ← htaken]
  · rw [bind_apply, bind_apply, hrest, hrest']
  · rw [bind_apply, List.map_append, herrors, hmore, List.flatMap_append]
  · rw [bind_apply, hrest, List.map_append, herrors', hmore', List.flatMap_append]
  · rw [bind_apply, bind_apply, hrest]
    exact hvalue'

namespace Parallel

theorem pure {a b : α} (h : R a b) : Parallel f [] R (Pure.pure a) (Pure.pure b) :=
  fun _ => ⟨[], [], .nil, rfl, rfl, rfl, rfl, h⟩

theorem peek {g k : TokenKind → Step β} (h : ∀ kind, Parallel f before S (g kind) (k kind)) :
    Parallel f before S (Step.peek >>= g) (Step.peek >>= k) :=
  fun ts => .peek (h _ ts)

theorem bind {g k : α → Step β} (hx : Parallel f before R x y)
    (hg : ∀ a b, R a b → Parallel f [] S (g a) (k b)) :
    Parallel f before S (x >>= g) (y >>= k) :=
  fun ts => (hx ts).bind fun a b hab => hg a b hab _

/-- Both find something or neither does. -/
theorem bindFound {γ : Type} {x y : Step (Option γ)} {g k : Option γ → Step β}
    (hx : Parallel f before BothRead x y) (hnone : Parallel f [] S (g none) (k none))
    (hsome : ∀ a b, Parallel f [] S (g (some a)) (k (some b))) :
    Parallel f before S (x >>= g) (y >>= k) := by
  refine hx.bind fun found found' hfound => ?_
  cases found <;> cases found'
  · exact hnone
  · cases hfound
  · cases hfound
  · exact hsome _ _

/-- A token that is no integer has no mark. -/
theorem behind {t : Token} (ht : t.kind ≠ .int) (h : Parallel f [] R x y) :
    Parallel f [t] R x y := by
  intro ts
  obtain ⟨taken, marks, hmarks, hrest⟩ := h ts
  exact ⟨taken, marks, hmarks.cons ht, hrest⟩

/-- Taking any token. -/
theorem next {g k : Token → Step β} (hg : ∀ t, Parallel f [t] S (g t) (k (t.respell f))) :
    Parallel f [] S (Step.next >>= g) (Step.next >>= k) := by
  intro ts
  cases ts with
  | nil =>
      -- The end token that is taken at the end of the list is no integer.
      obtain ⟨taken, marks, ⟨hliterals, hfaults, hall⟩, hrest⟩ := hg ⟨.eof, "", 0⟩ []
      exact ⟨taken, marks, ⟨hliterals, hfaults, hall⟩, hrest⟩
  | cons t ts =>
      obtain ⟨taken, marks, hmarks, htaken, hrest⟩ := hg t ts
      exact ⟨t :: taken, marks, hmarks, congrArg (t :: ·) htaken, hrest⟩

/-- Taking the token ahead if it is of a certain kind, never an integer. -/
theorem ifAhead {c : TokenKind → Prop} [DecidablePred c] (hint : ¬ c .int)
    {g k : Token → Step β} {x y : TokenKind → Step β} (hg : ∀ t, Parallel f [] S (g t) (k t))
    (hx : ∀ kind, Parallel f [] S (x kind) (y kind)) :
    Parallel f [] S (Step.peek >>= fun kind => if c kind then Step.next >>= g else x kind)
      (Step.peek >>= fun kind => if c kind then Step.next >>= k else y kind) := by
  refine fun ts => .peek ?_
  split
  · next hc => exact .next (fun h => hint (h ▸ hc)) fun t => hg t ts.tail
  · exact hx _ ts

theorem report {e e' : SyntaxError} (hbare : e'.bare = e.bare) (he : e.bare.blamesLiteral = false) :
    Parallel f before Eq (Step.report e) (Step.report e') := by
  refine fun ts => ⟨[], [.fault e.bare], .fault _ he, rfl, rfl, rfl, ?_, rfl⟩
  rw [report_apply, List.map_singleton, hbare]
  rfl

theorem expect [Std.Refl R] {wanted : TokenKind} (hwanted : wanted ≠ .int) {absent : α}
    {g k : String → Step α} (hg : ∀ s, Parallel f [] R (g s) (k s)) :
    Parallel f [] R (Step.expect wanted absent g) (Step.expect wanted absent k) := by
  intro ts
  by_cases hkind : aheadKind ts = wanted
  · cases ts with
    | nil =>
        simp only [ParallelOn, List.map_nil, Step.expect, hkind]
        exact hg _ []
    | cons t ts =>
        have ht : t.kind ≠ .int := fun h => hwanted (hkind.symm.trans h)
        obtain ⟨taken, marks, hmarks, htaken, hrest⟩ := hg t.literal ts
        refine ⟨t :: taken, marks, hmarks.cons ht, ?_⟩
        rw [List.map_cons, Token.respell_of_ne ht, expect_of_eq _ _ _ hkind,
          expect_of_eq _ _ _ hkind]
        exact ⟨congrArg (t :: ·) htaken, hrest⟩
  · have hkind' : aheadKind (ts.map (Token.respell f)) ≠ wanted := by
      rwa [aheadKind_respell]
    refine ⟨[], [.fault (.expected wanted (aheadKind ts))], .fault _ rfl, ?_⟩
    rw [expect_of_ne _ _ hkind, expect_of_ne _ _ hkind', aheadKind_respell]
    exact ⟨rfl, rfl, rfl, rfl, Std.Refl.refl absent⟩

theorem skipSemicolon : Parallel f [] Eq Step.skipSemicolon Step.skipSemicolon := by
  intro ts
  by_cases hkind : aheadKind ts = .semicolon
  · cases ts with
    | nil => exact ⟨[], [], .nil, rfl, rfl, rfl, rfl, rfl⟩
    | cons t ts =>
        have ht : t.kind ≠ .int := fun h => nomatch hkind.symm.trans h
        refine ⟨[t], [], Marks.nil.cons ht, ?_⟩
        rw [List.map_cons, Token.respell_of_ne ht, skipSemicolon_of_eq _ hkind,
          skipSemicolon_of_eq _ hkind]
        exact ⟨rfl, rfl, rfl, rfl, rfl⟩
  · have hkind' : aheadKind (ts.map (Token.respell f)) ≠ .semicolon := by
      rwa [aheadKind_respell]
    refine ⟨[], [], .nil, ?_⟩
    rw [skipSemicolon_of_ne hkind, skipSemicolon_of_ne hkind']
    exact ⟨rfl, rfl, rfl, rfl, rfl⟩

theorem outOfFuel [Std.Refl R] (absent : α) :
    Parallel f before R (Grammar.outOfFuel absent) (Grammar.outOfFuel absent) :=
  fun ts => ⟨ts, [.fault (.noOperand .eof)], .fault _ rfl, (List.append_nil ts).symm, rfl, rfl,
    rfl, Std.Refl.refl absent⟩

theorem ite {c : Prop} [Decidable c] {x y x' y' : Step α} (hx : Parallel f before R x x')
    (hy : Parallel f before R y y') :
    Parallel f before R (if c then x else y) (if c then x' else y') := by
  split
  · exact hx
  · exact hy

end Parallel

end

end Step

/-! ### The grammar -/

namespace Grammar

open Step Precedence

variable {f : String → String}

theorem integer_apply (literal : String) (ts : List Token) :
    integer literal ts =
      ⟨if literalFault? literal = none then .int (literalValue literal) literal else .missing, ts,
        (literalFault? literal).toList⟩ := by
  unfold integer literalFault?
  split
  · rfl
  · split <;> rfl

/-- Integers are the one thing about which readings with other spellings may differ. -/
theorem parallel_integer {t : Token} (ht : t.kind = .int) :
    Parallel f [t] Expr.AlikeTarget (integer t.literal) (integer (t.respell f).literal) := by
  intro ts
  have hliteral : (t.respell f).literal = f t.literal := by
    rw [Token.respell, if_pos ht]
  refine ⟨[], [.literal t], .literal ht, ?_⟩
  rw [integer_apply, integer_apply, hliteral]
  refine ⟨rfl, rfl, ?_, ?_, ?_⟩
  · exact (map_bare_literalFault t.literal).trans (List.append_nil _).symm
  · exact (map_bare_literalFault (f t.literal)).trans (List.append_nil _).symm
  · -- Neither an integer nor what stands for a refused one can be assigned to.
    change Expr.isAssignable _ = Expr.isAssignable _
    split <;> split <;> rfl

section

variable {t : Token} (ts : List Token)

theorem moreParameters_of_rparen (ht : t.kind = .rparen) :
    moreParameters (t :: ts) = ⟨some [], ts, []⟩ := by
  rw [moreParameters.eq_def]
  simp [ht]

theorem moreParameters_of_ne (hcomma : t.kind ≠ .comma) (hrparen : t.kind ≠ .rparen) :
    moreParameters (t :: ts) = ⟨none, t :: ts, [.expected .rparen t.kind]⟩ := by
  rw [moreParameters.eq_def]
  simp [hcomma, hrparen]

end

theorem parallelOn_moreParameters_of_absent {t : Token} (ht : t.kind = .comma) {ts : List Token}
    (hts : aheadKind ts ≠ .ident) :
    ParallelOn f [] BothRead moreParameters moreParameters (t :: ts) := by
  have hne : t.kind ≠ .int := ht ▸ by decide
  have hts' : aheadKind (ts.map (Token.respell f)) ≠ .ident := by
    rwa [aheadKind_respell]
  refine ⟨[t], [.fault (.expected .ident (aheadKind ts))], .fault _ rfl, ?_⟩
  rw [List.map_cons, Token.respell_of_ne hne, moreParameters_of_absent ts ht hts,
    moreParameters_of_absent _ ht hts', aheadKind_respell]
  exact ⟨rfl, rfl, rfl, rfl, rfl⟩

theorem parallel_moreParameters : Parallel f [] BothRead moreParameters moreParameters := by
  intro ts
  induction ts using moreParameters.induct with
  | case1 => exact ⟨[], [.fault (.expected .rparen .eof)], .fault _ rfl, rfl, rfl, rfl, rfl, rfl⟩
  | case2 t ht => exact parallelOn_moreParameters_of_absent ht (by decide)
  | case3 t ht u us hu ih =>
      obtain ⟨taken, marks, hmarks, htaken, hrest, herrors, herrors', hvalue⟩ := ih
      have hne : t.kind ≠ .int := ht ▸ by decide
      have hne' : u.kind ≠ .int := hu ▸ by decide
      refine ⟨t :: u :: taken, marks, (hmarks.cons hne').cons hne, ?_⟩
      rw [List.map_cons, List.map_cons, Token.respell_of_ne hne, Token.respell_of_ne hne',
        moreParameters_of_ident us ht hu, moreParameters_of_ident _ ht hu]
      refine ⟨congrArg (t :: u :: ·) htaken, hrest, herrors, herrors', ?_⟩
      simpa [BothRead] using hvalue
  | case4 t ht u us hu => exact parallelOn_moreParameters_of_absent ht hu
  | case5 t us hcomma ht =>
      have hne : t.kind ≠ .int := ht ▸ by decide
      refine ⟨[t], [], Marks.nil.cons hne, ?_⟩
      rw [List.map_cons, Token.respell_of_ne hne, moreParameters_of_rparen us ht,
        moreParameters_of_rparen _ ht]
      exact ⟨rfl, rfl, rfl, rfl, rfl⟩
  | case6 t us hcomma ht =>
      refine ⟨[], [.fault (.expected .rparen t.kind)], .fault _ rfl, ?_⟩
      rw [List.map_cons, moreParameters_of_ne us hcomma ht,
        moreParameters_of_ne _ (by simpa using hcomma) (by simpa using ht), Token.kind_respell]
      exact ⟨rfl, rfl, rfl, rfl, rfl⟩

theorem parallel_parameters : Parallel f [] BothRead parameters parameters := by
  rw [parameters]
  refine .ifAhead (by decide) (fun _ => .pure rfl) fun _ => .expect (by decide) fun name => ?_
  exact parallel_moreParameters.bindFound (.pure rfl) fun _ _ => .pure rfl

/-- With an amount of fuel every grammar function reads in parallel. -/
structure ParallelAt (f : String → String) (fuel : Nat) : Prop where
  expression : ∀ precedence, lowest ≤ precedence →
    Parallel f [] Expr.AlikeTarget (expression fuel precedence) (expression fuel precedence)
  operators : ∀ precedence, lowest ≤ precedence → ∀ left left', left.AlikeTarget left' →
    Parallel f [] Expr.AlikeTarget (operators fuel precedence left)
      (operators fuel precedence left')
  operand : ∀ t, Parallel f [t] Expr.AlikeTarget (operand fuel t) (operand fuel (t.respell f))
  operation : ∀ left left' t, left.AlikeTarget left' →
    Parallel f [] Expr.AlikeTarget (operation fuel left t) (operation fuel left' t)
  expressions : ∀ close, close ≠ .int →
    Parallel f [] Unread (expressions fuel close) (expressions fuel close)
  moreExpressions : Parallel f [] Unread (moreExpressions fuel) (moreExpressions fuel)
  pairs : Parallel f [] BothRead (pairs fuel) (pairs fuel)
  conditional : Parallel f [] Expr.AlikeTarget (conditional fuel) (conditional fuel)
  functionLiteral : Parallel f [] BothRead (functionLiteral fuel) (functionLiteral fuel)
  block : Parallel f [] Unread (block fuel) (block fuel)
  statement : Parallel f [] Unread (statement fuel) (statement fuel)
  expressionStatement :
    Parallel f [] Unread (expressionStatement fuel) (expressionStatement fuel)
  classDefinition : Parallel f [] Unread (classDefinition fuel) (classDefinition fuel)
  methods : Parallel f [] Unread (methods fuel) (methods fuel)
  method : Parallel f [] Unread (method fuel) (method fuel)

namespace ParallelAt

theorem zero (f : String → String) : ParallelAt f 0 where
  expression _ _ := .outOfFuel _
  operators _ _ _ _ _ := .outOfFuel _
  operand _ := .outOfFuel _
  operation _ _ _ _ := .outOfFuel _
  expressions _ _ := .outOfFuel _
  moreExpressions := .outOfFuel _
  pairs := .outOfFuel _
  conditional := .outOfFuel _
  functionLiteral := .outOfFuel _
  block := .outOfFuel _
  statement := .outOfFuel _
  expressionStatement := .outOfFuel _
  classDefinition := .outOfFuel _
  methods := .outOfFuel _
  method := .outOfFuel _

variable {fuel : Nat}

theorem expression_succ (h : ParallelAt f fuel) (precedence : Nat) (hp : lowest ≤ precedence) :
    Parallel f [] Expr.AlikeTarget (Grammar.expression (fuel + 1) precedence)
      (Grammar.expression (fuel + 1) precedence) := by
  rw [Grammar.expression]
  refine .next fun t => ?_
  rw [Token.kind_respell]
  refine .ite ?_ ?_
  · exact (h.operand t).bind fun left left' hleft => h.operators precedence hp left left' hleft
  · exact (Parallel.report rfl rfl).bind fun _ _ _ => .pure rfl

theorem operators_succ (h : ParallelAt f fuel) (precedence : Nat) (hp : lowest ≤ precedence)
    (left left' : Expr) (hleft : left.AlikeTarget left') :
    Parallel f [] Expr.AlikeTarget (Grammar.operators (fuel + 1) precedence left)
      (Grammar.operators (fuel + 1) precedence left') := by
  rw [Grammar.operators, Grammar.operators]
  -- Integers bind no tighter than anything, so none of them is taken for an operator.
  refine .ifAhead (Nat.not_lt.mpr hp) (fun t => ?_) fun _ => .pure hleft
  exact (h.operation left left' t hleft).bind fun whole whole' hwhole =>
    h.operators precedence hp whole whole' hwhole

theorem operand_succ (h : ParallelAt f fuel) (t : Token) :
    Parallel f [t] Expr.AlikeTarget (Grammar.operand (fuel + 1) t)
      (Grammar.operand (fuel + 1) (t.respell f)) := by
  by_cases ht : t.kind = .int
  · have hkind := (Token.kind_respell f t).trans ht
    rw [Grammar.operand, Grammar.operand]
    simp only [hkind, ht]
    exact parallel_integer ht
  · rw [Token.respell_of_ne ht, Grammar.operand]
    refine Parallel.behind ht ?_
    split
    case h_2 hint => exact absurd hint ht
    case h_9 => exact (h.expression _ (by decide)).bind fun _ _ _ => .pure rfl
    case h_10 => exact (h.expression _ (by decide)).bind fun _ _ _ => .pure rfl
    case h_11 =>
      refine (h.expression _ (by decide)).bind fun inner inner' hinner => ?_
      exact .expect (by decide) fun _ => .pure hinner
    case h_12 => exact h.conditional
    case h_13 => exact h.functionLiteral.bindFound (.pure rfl) fun _ _ => .pure rfl
    case h_14 =>
      refine .expect (by decide) fun _ => ?_
      exact (h.expressions _ (by decide)).bind fun _ _ _ => .pure rfl
    case h_15 => exact (h.expressions _ (by decide)).bind fun _ _ _ => .pure rfl
    case h_16 =>
      refine h.pairs.bindFound (.pure rfl) fun _ _ => ?_
      exact .expect (by decide) fun _ => .pure rfl
    case h_17 =>
      refine .expect (by decide) fun _ => .expect (by decide) fun _ => ?_
      exact (h.expressions _ (by decide)).bind fun _ _ _ => .pure rfl
    all_goals exact .pure rfl

theorem operation_succ (h : ParallelAt f fuel) (left left' : Expr) (t : Token)
    (hleft : left.AlikeTarget left') :
    Parallel f [] Expr.AlikeTarget (Grammar.operation (fuel + 1) left t)
      (Grammar.operation (fuel + 1) left' t) := by
  rw [Grammar.operation, Grammar.operation]
  split
  case h_3 => exact (h.expressions _ (by decide)).bind fun _ _ _ => .pure rfl
  case h_4 =>
    exact (h.expression _ (by decide)).bind fun _ _ _ => .expect (by decide) fun _ => .pure rfl
  case h_5 => exact .expect (by decide) fun _ => .pure rfl
  case h_6 =>
    have hvalue : Parallel f [] Expr.AlikeTarget
        (Grammar.expression fuel lowest >>= fun value => pure (Expr.assign left value))
        (Grammar.expression fuel lowest >>= fun value => pure (Expr.assign left' value)) :=
      (h.expression _ (by decide)).bind fun _ _ _ => .pure rfl
    rw [show left'.isAssignable = left.isAssignable from hleft.symm]
    exact .ite hvalue ((Parallel.report rfl rfl).bind fun _ _ _ => hvalue)
  all_goals exact (h.expression _ (TokenKind.lowest_le_precedence _)).bind fun _ _ _ => .pure rfl

theorem expressions_succ (h : ParallelAt f fuel) (close : TokenKind) (hclose : close ≠ .int) :
    Parallel f [] Unread (Grammar.expressions (fuel + 1) close)
      (Grammar.expressions (fuel + 1) close) := by
  rw [Grammar.expressions]
  refine .ifAhead hclose.symm (fun _ => .pure trivial) fun _ => ?_
  refine (h.expression _ (by decide)).bind fun _ _ _ => h.moreExpressions.bind fun _ _ _ => ?_
  have hend : Parallel f [] Unread (Step.expect close () fun _ => pure ())
      (Step.expect close () fun _ => pure ()) :=
    .expect hclose fun _ => .pure trivial
  exact hend.bind fun _ _ _ => .pure trivial

theorem moreExpressions_succ (h : ParallelAt f fuel) :
    Parallel f [] Unread (Grammar.moreExpressions (fuel + 1))
      (Grammar.moreExpressions (fuel + 1)) := by
  rw [Grammar.moreExpressions]
  refine .ifAhead (by decide) (fun _ => ?_) fun _ => .pure trivial
  refine (h.expression _ (by decide)).bind fun _ _ _ => h.moreExpressions.bind fun _ _ _ => ?_
  exact .pure trivial

theorem pairs_succ (h : ParallelAt f fuel) :
    Parallel f [] BothRead (Grammar.pairs (fuel + 1)) (Grammar.pairs (fuel + 1)) := by
  rw [Grammar.pairs]
  refine .peek fun _ => .ite (.pure rfl) ?_
  refine (h.expression _ (by decide)).bind fun _ _ _ => .expect (by decide) fun _ => ?_
  refine (h.expression _ (by decide)).bind fun _ _ _ => .peek fun _ => .ite ?_ ?_
  · exact .pure rfl
  · exact .expect (by decide) fun _ => h.pairs.bindFound (.pure rfl) fun _ _ => .pure rfl

theorem conditional_succ (h : ParallelAt f fuel) :
    Parallel f [] Expr.AlikeTarget (Grammar.conditional (fuel + 1))
      (Grammar.conditional (fuel + 1)) := by
  rw [Grammar.conditional]
  refine .expect (by decide) fun _ => (h.expression _ (by decide)).bind fun _ _ _ => ?_
  refine .expect (by decide) fun _ => .expect (by decide) fun _ => h.block.bind fun _ _ _ => ?_
  refine .ifAhead (by decide) (fun _ => .ifAhead (by decide) ?_ ?_) fun _ => .pure rfl
  · exact fun _ => h.conditional.bind fun _ _ _ => .pure rfl
  · exact fun _ => .expect (by decide) fun _ => h.block.bind fun _ _ _ => .pure rfl

theorem functionLiteral_succ (h : ParallelAt f fuel) :
    Parallel f [] BothRead (Grammar.functionLiteral (fuel + 1))
      (Grammar.functionLiteral (fuel + 1)) := by
  rw [Grammar.functionLiteral]
  refine .expect (by decide) fun _ => parallel_parameters.bindFound (.pure rfl) fun _ _ => ?_
  exact .expect (by decide) fun _ => h.block.bind fun _ _ _ => .pure rfl

theorem block_succ (h : ParallelAt f fuel) :
    Parallel f [] Unread (Grammar.block (fuel + 1)) (Grammar.block (fuel + 1)) := by
  rw [Grammar.block]
  refine fun ts => .peek ?_
  split
  · next hahead => exact .next (hahead ▸ by decide) fun _ => Parallel.pure trivial _
  split
  · next hahead =>
      have hend : aheadKind ts ≠ .int := hahead ▸ by decide
      refine .bind (Parallel.report rfl rfl ts) fun _ _ _ => ?_
      exact .next hend fun _ => Parallel.pure trivial _
  · exact h.statement.bind (fun _ _ _ => h.block.bind fun _ _ _ => .pure trivial) ts

theorem expressionStatement_succ (h : ParallelAt f fuel) :
    Parallel f [] Unread (Grammar.expressionStatement (fuel + 1))
      (Grammar.expressionStatement (fuel + 1)) := by
  rw [Grammar.expressionStatement]
  refine (h.expression _ (by decide)).bind fun _ _ _ => ?_
  exact Parallel.skipSemicolon.bind fun _ _ _ => .pure trivial

theorem statement_succ (h : ParallelAt f fuel) :
    Parallel f [] Unread (Grammar.statement (fuel + 1)) (Grammar.statement (fuel + 1)) := by
  have hvalue {value : Expr → Stmt} : Parallel f [] Unread
      (Grammar.expression fuel lowest >>= fun e => Step.skipSemicolon >>= fun _ =>
        pure (some (value e)))
      (Grammar.expression fuel lowest >>= fun e => Step.skipSemicolon >>= fun _ =>
        pure (some (value e))) :=
    (h.expression _ (by decide)).bind fun _ _ _ =>
      Parallel.skipSemicolon.bind fun _ _ _ => .pure trivial
  rw [Grammar.statement]
  refine fun ts => .peek ?_
  split
  case h_1 hahead =>
    refine .next (hahead ▸ by decide) fun _ => ?_
    exact Parallel.expect (by decide) (fun _ => .expect (by decide) fun _ => hvalue) _
  case h_2 hahead =>
    refine .next (hahead ▸ by decide) fun _ => Parallel.peek (fun _ => .ite ?_ hvalue) _
    exact Parallel.skipSemicolon.bind fun _ _ _ => .pure trivial
  case h_3 hahead => exact .next (hahead ▸ by decide) fun _ => h.classDefinition _
  case h_4 hahead => exact .next (hahead ▸ by decide) fun _ => Parallel.pure trivial _
  case h_5 hahead =>
    refine .peekSecond ?_
    split
    · next hsecond =>
        refine .next (hahead ▸ by decide) fun _ => .next (hsecond ▸ by decide) fun name => ?_
        refine Parallel.bindFound h.functionLiteral ?_ (fun _ _ => ?_) _
        · exact .pure trivial
        · exact Parallel.skipSemicolon.bind fun _ _ _ => .pure trivial
    · exact h.expressionStatement ts
  case h_6 => exact h.expressionStatement ts

theorem classDefinition_succ (h : ParallelAt f fuel) :
    Parallel f [] Unread (Grammar.classDefinition (fuel + 1))
      (Grammar.classDefinition (fuel + 1)) := by
  rw [Grammar.classDefinition]
  refine .expect (by decide) fun _ => .ifAhead (by decide) (fun _ => ?_) fun _ => ?_
  · refine .expect (by decide) fun _ => .expect (by decide) fun _ => ?_
    exact h.methods.bind fun _ _ _ => .pure trivial
  · exact .expect (by decide) fun _ => h.methods.bind fun _ _ _ => .pure trivial

theorem methods_succ (h : ParallelAt f fuel) :
    Parallel f [] Unread (Grammar.methods (fuel + 1)) (Grammar.methods (fuel + 1)) := by
  rw [Grammar.methods]
  refine .next fun t => ?_
  rw [Token.kind_respell]
  split
  case h_1 ht => exact .behind (ht ▸ by decide) (.pure trivial)
  case h_2 => exact (Parallel.report rfl rfl).bind fun _ _ _ => .pure trivial
  case h_3 ht =>
    refine .behind (ht ▸ by decide) (h.method.bind fun _ _ _ => ?_)
    exact h.methods.bind fun _ _ _ => .pure trivial
  case h_4 ht => exact .behind (ht ▸ by decide) h.methods
  case h_5 => exact (Parallel.report rfl rfl).bind fun _ _ _ => h.methods

theorem method_succ (h : ParallelAt f fuel) :
    Parallel f [] Unread (Grammar.method (fuel + 1)) (Grammar.method (fuel + 1)) := by
  rw [Grammar.method]
  refine .expect (by decide) fun _ => .expect (by decide) fun _ => .expect (by decide) fun _ => ?_
  refine h.functionLiteral.bindFound (.pure trivial) fun _ _ => ?_
  exact Parallel.skipSemicolon.bind fun _ _ _ => .pure trivial

theorem succ (h : ParallelAt f fuel) : ParallelAt f (fuel + 1) where
  expression := h.expression_succ
  operators := h.operators_succ
  operand := h.operand_succ
  operation := h.operation_succ
  expressions := h.expressions_succ
  moreExpressions := h.moreExpressions_succ
  pairs := h.pairs_succ
  conditional := h.conditional_succ
  functionLiteral := h.functionLiteral_succ
  block := h.block_succ
  statement := h.statement_succ
  expressionStatement := h.expressionStatement_succ
  classDefinition := h.classDefinition_succ
  methods := h.methods_succ
  method := h.method_succ

end ParallelAt

theorem parallelAt (f : String → String) (fuel : Nat) : ParallelAt f fuel := by
  induction fuel with
  | zero => exact .zero f
  | succ fuel ih => exact ih.succ

theorem parallel_program (fuel : Nat) : Parallel f [] Unread (program fuel) (program fuel) := by
  induction fuel with
  | zero => exact .outOfFuel _
  | succ fuel ih =>
      rw [Grammar.program]
      refine .peek fun _ => .ite (.pure trivial) ?_
      exact (parallelAt f fuel).statement.bind fun _ _ _ => ih.bind fun _ _ _ => .pure trivial

end Grammar

/-! ### Readings -/

namespace Reading

/-- Integers spelled otherwise, a token list is read along the same course, with the same errors
but for those about the literals of its integers. A reading without errors goes as far as an end
token. -/
theorem ofTokens_respell (f : String → String) (ts : List Token) :
    ∃ taken rest marks, ts = taken ++ rest ∧ Marks taken marks ∧
      (ofTokens ts).errors.map SyntaxError.bare = marks.flatMap (Mark.errors id) ∧
      (ofTokens (ts.map (Token.respell f))).errors.map SyntaxError.bare =
        marks.flatMap (Mark.errors f) ∧
      ((ofTokens (ts.map (Token.respell f))).errors = [] → Step.aheadKind rest = .eof) := by
  have hfuel : Grammar.fuelFor (ts.map (Token.respell f)) = Grammar.fuelFor ts := by
    rw [Grammar.fuelFor, Grammar.fuelFor, List.length_map]
  obtain ⟨taken, marks, hmarks, htaken, hrest, herrors, herrors', -⟩ :=
    Grammar.parallel_program (f := f) (Grammar.fuelFor ts) ts
  refine ⟨taken, _, marks, htaken, hmarks, herrors, ?_, fun hnone => ?_⟩
  · rw [ofTokens, hfuel]
    exact herrors'
  · rw [ofTokens, hfuel] at hnone
    have hend := (Grammar.program_spelled (Step.yields_of_errors hnone)).endsBefore
    rw [hrest, Step.aheadKind_respell] at hend
    exact hend

end Reading

/-- A reading that comes across literals alone records what is wrong with each of them. -/
theorem Mark.errors_of_literals {marks : List Mark} (h : ∀ e, Mark.fault e ∉ marks) :
    marks.flatMap (Mark.errors id) =
      (marks.filterMap Mark.literal?).filterMap fun t => literalFault? t.literal := by
  induction marks with
  | nil => rfl
  | cons m marks ih =>
      have hmarks := ih fun e he => h e (List.mem_cons_of_mem m he)
      cases m with
      | fault e => exact absurd List.mem_cons_self (h e)
      | literal t =>
          have hkept : (literal t :: marks).filterMap literal? =
              t :: marks.filterMap literal? := rfl
          rw [List.flatMap_cons, hmarks, errors, hkept, List.filterMap_cons, id]
          cases literalFault? t.literal <;> rfl

theorem SyntaxError.map_bare_inj {es es' : List SyntaxError} (h : es.map SyntaxError.bare = es')
    (hes' : ∀ e ∈ es', e.blamesLiteral = true) : es = es' := by
  have hfixed : ∀ e ∈ es, e.bare = e := by
    intro e he
    have hblames := hes' e.bare (h ▸ List.mem_map_of_mem he)
    cases e <;> first | rfl | cases hblames
  rw [← h, List.map_congr_left hfixed, List.map_id']

/-- Where the only end token is the last one, no integer stands behind what ends in front of an
end token. -/
theorem integerTokens_of_end {ts taken rest : List Token} {e : Token}
    (hts : ∀ t ∈ ts, t.kind ≠ .eof) (he : e.kind = .eof) (hsplit : ts ++ [e] = taken ++ rest)
    (hrest : Step.aheadKind rest = .eof) : integerTokens taken = integerTokens (ts ++ [e]) := by
  cases rest with
  | nil => rw [hsplit, List.append_nil]
  | cons r rest =>
      rcases List.eq_nil_or_concat rest with rfl | ⟨us, u, rfl⟩
      · obtain ⟨rfl, -⟩ := List.append_inj' hsplit rfl
        have hlast : integerTokens [e] = [] := List.filter_cons_of_neg (by simp [he])
        rw [integerTokens_append, hlast, List.append_nil]
      · rw [List.concat_eq_append, ← List.cons_append, ← List.append_assoc] at hsplit
        obtain ⟨rfl, -⟩ := List.append_inj' hsplit rfl
        exact absurd hrest (hts r (List.mem_append_right taken List.mem_cons_self))

/-- The literals of the integer tokens of a text, in their order. -/
def integerLiterals (text : String) : List String :=
  (integerTokens (tokenize text)).map Token.literal

theorem digitRow_of_mem_integerLiterals {text literal : String}
    (h : literal ∈ integerLiterals text) : DigitRow literal := by
  obtain ⟨t, ht, rfl⟩ := List.mem_map.mp h
  obtain ⟨ht, hint⟩ := List.mem_filter.mp ht
  exact digitRows_tokenize text t ht (by simpa using hint)

namespace Reading

/-- An error about a literal is about one of the tokens. -/
theorem exists_token_of_blames {ts : List Token} {e : SyntaxError}
    (h : e ∈ (ofTokens ts).errors) (he : e.blamesLiteral = true) :
    ∃ t ∈ integerTokens ts, literalFault? t.literal = some e := by
  obtain ⟨taken, rest, marks, rfl, hmarks, herrors, -⟩ := ofTokens_respell id ts
  have hbare : e.bare = e := by
    cases e <;> first | rfl | cases he
  have hmem : e ∈ marks.flatMap (Mark.errors id) := by
    rw [← herrors, ← hbare]
    exact List.mem_map_of_mem h
  obtain ⟨m, hm, hem⟩ := List.mem_flatMap.mp hmem
  cases m with
  | fault e' =>
      cases List.mem_singleton.mp hem
      exact absurd he (by simp [hmarks.faults e hm])
  | literal t =>
      have ht : t ∈ integerTokens taken :=
        hmarks.literals.subset (List.mem_filterMap.mpr ⟨_, hm, rfl⟩)
      refine ⟨t, ?_, Option.mem_toList.mp hem⟩
      rw [integerTokens_append]
      exact List.mem_append_left _ ht

theorem exists_literal_of_blames {text : String} {e : SyntaxError}
    (h : e ∈ (ofText text).errors) (he : e.blamesLiteral = true) :
    ∃ literal ∈ integerLiterals text, literalFault? literal = some e := by
  obtain ⟨t, ht, hfault⟩ := exists_token_of_blames h he
  exact ⟨t.literal, List.mem_map_of_mem ht, hfault⟩

/-- If a text would be fine with other integers in it, then the errors about its integer literals,
in their order, are all that is wrong with it. -/
theorem errors_of_respell (f : String → String) (text : String)
    (h : (ofTokens ((tokenize text).map (Token.respell f))).errors = []) :
    (ofText text).errors =
      (integerLiterals text).filterMap literalFault? := by
  obtain ⟨taken, rest, marks, hsplit, hmarks, herrors, hnone, hend⟩ :=
    ofTokens_respell f (tokenize text)
  rw [h] at hnone
  have hfaultless : ∀ e, Mark.fault e ∉ marks := by
    intro e he
    exact List.cons_ne_nil e [] (List.flatMap_eq_nil_iff.mp hnone.symm _ he)
  obtain ⟨ts, hts, htokens, -⟩ := exists_tokensFrom_append 0 text.toList
  have hall : integerTokens taken = integerTokens (tokenize text) := by
    rw [tokenize, htokens] at hsplit ⊢
    exact integerTokens_of_end hts rfl hsplit (hend h)
  rw [Mark.errors_of_literals hfaultless, hmarks.all hfaultless, hall] at herrors
  rw [integerLiterals, List.filterMap_map]
  refine SyntaxError.map_bare_inj herrors fun e he => ?_
  obtain ⟨t, -, ht⟩ := List.mem_filterMap.mp he
  exact SyntaxError.blamesLiteral_of_literalFault ht

end Reading

end Scripting
