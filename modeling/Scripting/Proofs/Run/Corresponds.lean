import Scripting.Run.State

/-!
# Corresponding computations

`x.Corresponds R X Q y` compares two computations step for step: run on states with `R` they leave
states with `R`, and both have results with `Q` or neither has one. Nothing is said where the result
of the first satisfies `X`; with such a result, a runtime error say, the two may part. There is a
rule for each way of putting computations together.
-/

namespace Scripting

namespace Eval

variable {α β γ δ : Type} {R : State → State → Prop} {X : α → Prop} {Q : α → β → Prop}
  {X' : γ → Prop} {Q' : γ → δ → Prop}

/-- Run on states with `R`, two computations leave states with `R` and give results with `Q` or
both none, unless the first gives a result with `X`. -/
def Corresponds (R : State → State → Prop) (X : α → Prop) (Q : α → β → Prop) (x : Eval α)
    (y : Eval β) : Prop :=
  ∀ s s', R s s' →
    (∃ a, (x.runOn s).1 = some a ∧ X a) ∨
      R (x.runOn s).2 (y.runOn s').2 ∧ Option.Rel Q (x.runOn s).1 (y.runOn s').1

/-- Correspondence without exception. -/
abbrev Matches (R : State → State → Prop) (Q : α → β → Prop) (x : Eval α) (y : Eval β) : Prop :=
  x.Corresponds R (fun _ => False) Q y

/-- What corresponds to a result that is not excepted. -/
theorem Corresponds.result {x : Eval α} {y : Eval β} (h : x.Corresponds R X Q y) {s s' t : State}
    (hs : R s s') {a : α} (ha : x.runOn s = (some a, t)) (hX : ¬X a) :
    ∃ b t', y.runOn s' = (some b, t') ∧ R t t' ∧ Q a b := by
  rcases h s s' hs with ⟨b, hb, hXb⟩ | ⟨ht, hrel⟩
  · rw [ha] at hb
    cases hb
    exact absurd hXb hX
  · obtain ⟨r, t', hy⟩ : ∃ r t', y.runOn s' = (r, t') := ⟨_, _, rfl⟩
    rw [ha, hy] at ht hrel
    cases hrel with
    | some hab => exact ⟨_, t', hy, ht, hab⟩

theorem Corresponds.mono {x : Eval α} {y : Eval β} {X₁ : α → Prop} {Q₁ : α → β → Prop}
    (h : x.Corresponds R X Q y) (hX : ∀ a, X a → X₁ a) (hQ : ∀ a b, Q a b → Q₁ a b) :
    x.Corresponds R X₁ Q₁ y := by
  intro s s' hs
  rcases h s s' hs with ⟨a, ha, hXa⟩ | ⟨ht, hrel⟩
  · exact .inl ⟨a, ha, hX a hXa⟩
  · refine .inr ⟨ht, ?_⟩
    generalize (x.runOn s).1 = r at hrel ⊢
    generalize (y.runOn s').1 = r' at hrel ⊢
    cases hrel with
    | none => exact .none
    | some hab => exact .some (hQ _ _ hab)

theorem Corresponds.pure {a : α} {b : β} (h : Q a b) :
    (pure a : Eval α).Corresponds R X Q (pure b) :=
  fun _ _ hs => .inr ⟨hs, .some h⟩

/-- A result that is excepted corresponds to any computation. -/
theorem Corresponds.excepted {a : α} (h : X a) (y : Eval β) :
    (Pure.pure a : Eval α).Corresponds R X Q y :=
  fun _ _ _ => .inl ⟨a, rfl, h⟩

theorem Corresponds.tooDeep :
    (tooDeep : Eval α).Corresponds R X Q (tooDeep : Eval β) :=
  fun _ _ hs => .inr ⟨hs, .none⟩

theorem Matches.act {f : State → α × State} {g : State → β × State}
    (h : ∀ s s', R s s' → R (f s).2 (g s').2 ∧ Q (f s).1 (g s').1) :
    (act f).Matches R Q (act g) := by
  intro s s' hs
  obtain ⟨ht, hQ⟩ := h s s' hs
  exact .inr ⟨ht, .some hQ⟩

/-- A chain whose first part may end in an excepted result has to hand on an excepted result
then. -/
theorem Corresponds.bind {x : Eval α} {y : Eval β} {f : α → Eval γ} {g : β → Eval δ}
    (hx : x.Corresponds R X Q y) (hf : ∀ a b, Q a b → (f a).Corresponds R X' Q' (g b))
    (hX : ∀ a, X a → ∃ c, f a = Pure.pure c ∧ X' c) :
    (x >>= f).Corresponds R X' Q' (y >>= g) := by
  intro s s' hs
  obtain ⟨r, t, hxr⟩ : ∃ r t, x.runOn s = (r, t) := ⟨_, _, rfl⟩
  obtain ⟨r', t', hyr⟩ : ∃ r' t', y.runOn s' = (r', t') := ⟨_, _, rfl⟩
  have h := hx s s' hs
  rw [runOn_bind, runOn_bind, hxr, hyr]
  rw [hxr, hyr] at h
  rcases h with ⟨a, ha, hXa⟩ | ⟨ht, hrel⟩
  · cases ha
    obtain ⟨c, hc, hXc⟩ := hX a hXa
    exact .inl ⟨c, by simp [hc], hXc⟩
  · cases hrel with
    | none => exact .inr ⟨ht, .none⟩
    | some hab => exact hf _ _ hab t t' ht

/-- A chain whose first part is never excepted. -/
theorem Matches.bind {x : Eval α} {y : Eval β} {f : α → Eval γ} {g : β → Eval δ}
    (hx : x.Matches R Q y) (hf : ∀ a b, Q a b → (f a).Corresponds R X' Q' (g b)) :
    (x >>= f).Corresponds R X' Q' (y >>= g) :=
  Corresponds.bind hx hf fun _ h => h.elim

/-- Computations on the members of a list and on their images. -/
theorem Matches.forM {ε : Type} {f : γ → Eval Unit} {g : ε → Eval Unit} {image : γ → ε}
    (h : ∀ c, (f c).Matches R (fun _ _ => True) (g (image c))) :
    ∀ cs : List γ, (cs.forM f).Matches R (fun _ _ => True) ((cs.map image).forM g)
  | [] => Corresponds.pure trivial
  | c :: cs => (h c).bind fun _ _ _ => Matches.forM h cs

/-- Computations on the members of a list, where each member can be told from the result that the
first of the two gives on it. -/
theorem Matches.mapM {f : γ → Eval α} {g : γ → Eval β} {source : α → γ} {image : α → β}
    (h : ∀ c, (f c).Matches R (fun a b => source a = c ∧ b = image a) (g c)) :
    ∀ cs : List γ,
      (cs.mapM f).Matches R (fun as bs => as.map source = cs ∧ bs = as.map image) (cs.mapM g)
  | [] => by
      rw [List.mapM_nil, List.mapM_nil]
      exact Corresponds.pure ⟨rfl, rfl⟩
  | c :: cs => by
      rw [List.mapM_cons, List.mapM_cons]
      refine (h c).bind ?_
      rintro a b ⟨rfl, rfl⟩
      refine (Matches.mapM h cs).bind ?_
      rintro as bs ⟨rfl, rfl⟩
      exact Corresponds.pure ⟨List.map_cons, (List.map_cons).symm⟩

end Eval

end Scripting
