import Scripting.Reading.Grammar

/-!
# Steps without a fault

A step yields a value when it gives it and records no error. What a chain of steps yields is put
together from what its parts yield, and a step that reports an error or has no fuel yields nothing.
-/

namespace Scripting

namespace Step

variable {α β : Type}

/-- The step takes `ts`, leaves `rest`, gives `a` and records no error. -/
def Yields (x : Step α) (ts : List Token) (a : α) (rest : List Token) : Prop :=
  x ts = ⟨a, rest, []⟩

theorem yields_of_errors {x : Step α} {ts : List Token} (h : (x ts).errors = []) :
    x.Yields ts (x ts).value (x ts).rest := by
  rw [Yields, ← h]

@[simp] theorem yields_pure {a b : α} {ts rest : List Token} :
    (pure a : Step α).Yields ts b rest ↔ a = b ∧ ts = rest := by
  rw [Yields, pure_apply, StepResult.mk.injEq]
  exact ⟨fun h => ⟨h.1, h.2.1⟩, fun h => ⟨h.1, h.2, rfl⟩⟩

@[simp] theorem yields_bind {x : Step α} {f : α → Step β} {ts rest : List Token} {b : β} :
    (x >>= f).Yields ts b rest ↔ ∃ a mid, x.Yields ts a mid ∧ (f a).Yields mid b rest := by
  constructor
  · intro h
    rw [Yields, bind_apply, StepResult.mk.injEq, List.append_eq_nil_iff] at h
    obtain ⟨hvalue, hrest, hx, hf⟩ := h
    refine ⟨_, _, yields_of_errors hx, ?_⟩
    rw [← hvalue, ← hrest]
    exact yields_of_errors hf
  · rintro ⟨a, mid, hx, hf⟩
    rw [Yields] at hx hf
    rw [Yields, bind_apply, hx, hf]
    rfl

theorem yields_next {t : Token} {ts rest : List Token} :
    next.Yields ts t rest ↔ ts = t :: rest ∨ ts = [] ∧ rest = [] ∧ t = ⟨.eof, "", 0⟩ := by
  cases ts with
  | nil =>
      rw [Yields, next_nil, StepResult.mk.injEq]
      constructor
      · rintro ⟨ht, hrest, -⟩
        exact .inr ⟨rfl, hrest.symm, ht.symm⟩
      · rintro (h | ⟨-, hrest, ht⟩)
        · cases h
        · exact ⟨ht.symm, hrest.symm, rfl⟩
  | cons u us =>
      rw [Yields, next_cons, StepResult.mk.injEq, List.cons.injEq]
      constructor
      · rintro ⟨ht, hrest, -⟩
        exact .inl ⟨ht, hrest⟩
      · rintro (⟨ht, hrest⟩ | ⟨h, -⟩)
        · exact ⟨ht, hrest, rfl⟩
        · cases h

theorem not_yields_report {e : SyntaxError} {ts rest : List Token} {u : Unit} :
    ¬(report e).Yields ts u rest := by
  intro h
  rw [Yields, report_apply, StepResult.mk.injEq] at h
  exact List.cons_ne_nil _ _ h.2.2

theorem not_yields_report_bind {e : SyntaxError} {f : Unit → Step β} {ts rest : List Token}
    {b : β} : ¬(report e >>= f).Yields ts b rest := by
  rw [yields_bind]
  rintro ⟨_, _, h, -⟩
  exact not_yields_report h

/-- An expected token is there and the step behind it yields. -/
theorem yields_expect (wanted : TokenKind) (hwanted : (wanted != .eof) = true) {absent : α}
    {found : String → Step α} {ts rest : List Token} {a : α} :
    (expect wanted absent found).Yields ts a rest ↔
      ∃ t mid, ts = t :: mid ∧ t.kind = wanted ∧ (found t.literal).Yields mid a rest := by
  constructor
  · intro h
    by_cases hk : aheadKind ts = wanted
    · cases ts with
      | nil => exact absurd hk.symm (bne_iff_ne.mp hwanted)
      | cons t mid =>
          rw [Yields, expect_of_eq absent found mid hk] at h
          exact ⟨t, mid, rfl, hk, h⟩
    · rw [Yields, expect_of_ne absent found hk, StepResult.mk.injEq] at h
      exact absurd h.2.2 (List.cons_ne_nil _ _)
  · rintro ⟨t, mid, rfl, hk, h⟩
    rw [Yields, expect_of_eq absent found mid hk]
    exact h

/-- Looking at the next token changes nothing. -/
theorem yields_peek_bind {f : TokenKind → Step β} {ts rest : List Token} {b : β} :
    (peek >>= f).Yields ts b rest ↔ (f (aheadKind ts)).Yields ts b rest := Iff.rfl

theorem yields_peekSecond_bind {f : TokenKind → Step β} {ts rest : List Token} {b : β} :
    (peekSecond >>= f).Yields ts b rest ↔ (f (aheadKind ts.tail)).Yields ts b rest := Iff.rfl

/-- A token that was seen ahead is taken and the step behind it yields. -/
theorem yields_next_bind {f : Token → Step β} {kind : TokenKind} {ts rest : List Token} {b : β}
    (hahead : aheadKind ts = kind) (hkind : (kind != .eof) = true) :
    (next >>= f).Yields ts b rest ↔
      ∃ t mid, ts = t :: mid ∧ t.kind = kind ∧ (f t).Yields mid b rest := by
  cases ts with
  | nil => exact absurd hahead.symm (bne_iff_ne.mp hkind)
  | cons t mid =>
      constructor
      · exact fun h => ⟨t, mid, rfl, hahead, h⟩
      · rintro ⟨t, mid, ⟨⟩, -, h⟩
        exact h

theorem yields_skipSemicolon {ts rest : List Token} {u : Unit} :
    skipSemicolon.Yields ts u rest ↔
      (∃ t, t.kind = .semicolon ∧ ts = t :: rest) ∨ aheadKind rest ≠ .semicolon ∧ ts = rest := by
  by_cases hk : aheadKind ts = .semicolon
  · cases ts with
    | nil => cases hk
    | cons t mid =>
        rw [Yields, skipSemicolon_of_eq mid hk, StepResult.mk.injEq]
        constructor
        · rintro ⟨-, rfl, -⟩
          exact .inl ⟨t, hk, rfl⟩
        · rintro (⟨v, -, h⟩ | ⟨hrest, rfl⟩)
          · cases h
            exact ⟨rfl, rfl, rfl⟩
          · exact absurd hk hrest
  · rw [Yields, skipSemicolon_of_ne hk, StepResult.mk.injEq]
    constructor
    · rintro ⟨-, rfl, -⟩
      exact .inr ⟨hk, rfl⟩
    · rintro (⟨t, ht, rfl⟩ | ⟨-, rfl⟩)
      · exact absurd ht hk
      · exact ⟨rfl, rfl, rfl⟩

theorem not_yields_outOfFuel {absent a : α} {ts rest : List Token} :
    ¬(Grammar.outOfFuel absent).Yields ts a rest := by
  intro h
  rw [Yields, Grammar.outOfFuel, StepResult.mk.injEq] at h
  exact List.cons_ne_nil _ _ h.2.2

/-! ### Putting chains together -/

namespace Yields

variable {x : Step α} {f : α → Step β} {ts mid rest : List Token} {a : α} {b : β} {t : Token}

theorem bind (hx : x.Yields ts a mid) (hf : (f a).Yields mid b rest) :
    (x >>= f).Yields ts b rest :=
  yields_bind.mpr ⟨a, mid, hx, hf⟩

theorem pure (a : α) (ts : List Token) : (Pure.pure a : Step α).Yields ts a ts :=
  yields_pure.mpr ⟨rfl, rfl⟩

theorem map {g : α → β} (hx : x.Yields ts a rest) :
    (x >>= fun a => Pure.pure (g a)).Yields ts (g a) rest :=
  hx.bind (pure _ _)

theorem bind_peek {f : TokenKind → Step β} (h : (f (aheadKind ts)).Yields ts b rest) :
    (peek >>= f).Yields ts b rest :=
  yields_peek_bind.mpr h

theorem bind_peekSecond {f : TokenKind → Step β} (h : (f (aheadKind ts.tail)).Yields ts b rest) :
    (peekSecond >>= f).Yields ts b rest :=
  yields_peekSecond_bind.mpr h

theorem bind_next {f : Token → Step β} (h : (f t).Yields ts b rest) :
    (next >>= f).Yields (t :: ts) b rest :=
  bind (yields_next.mpr (.inl rfl)) h

theorem expect {wanted : TokenKind} {absent : α} {found : String → Step α} (ht : t.kind = wanted)
    (h : (found t.literal).Yields ts a rest) :
    (Step.expect wanted absent found).Yields (t :: ts) a rest := by
  rw [Yields, expect_of_eq absent found ts ht]
  exact h

end Yields

end Step

end Scripting
