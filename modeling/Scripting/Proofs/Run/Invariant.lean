import Scripting.Run.Eval
import Scripting.Proofs.Run.Keeps
import Scripting.Proofs.Run.Stored
import Scripting.Proofs.Tree.Forall
import Scripting.Proofs.Value.Everywhere

/-!
# Invariants of evaluation

An invariant of evaluation says which values a script may hold, which errors may come up and which
expressions may be evaluated. `Invariant P E p` collects what these three have to satisfy for
one another; from it follows, along the tree, that every evaluation keeps to them: all states that
it passes through store only values that satisfy `P` everywhere, and its result is such a value, a
`return` with such a value, or an error that satisfies `E`.
-/

namespace Scripting

/-- The methods of a class and of its ancestors. -/
def Class.closures (c : Class) : List Closure :=
  (c.own :: c.ancestors).flatMap fun k => k.methods.map Prod.snd

/-- What values with `P` everywhere, errors with `E` and expressions with `p` everywhere have to
satisfy so that evaluation stays among them. -/
structure Invariant (P : Value → Prop) (E : RuntimeError → Prop) (p : Expr → Prop) : Prop where
  ordinary : ∀ v, P v → v.isSignal = false
  literal : ∀ n digits, p (.int n digits) → P (.integer n)
  wrapped : ∀ n, P (.integer (wrap64 n))
  length : ∀ n : Nat, P (.integer n)
  string : ∀ s, P (.string s)
  boolean : ∀ b, P (.boolean b)
  null : P .null
  builtin : ∀ b, P (.builtin b)
  array : ∀ i vs, (∀ v ∈ vs, v.Everywhere P) → P (.array i vs)
  hash : ∀ i (pairs : List (Value × Value)),
    (∀ pair ∈ pairs, pair.1.Everywhere P ∧ pair.2.Everywhere P) →
      P (.hash i (Table.ofList (pairs.map fun pair => (pair.1.inspect, pair))))
  function : ∀ f, P (.function f) ↔ f.literal.Forall p
  cls : ∀ c, P (.cls c) ↔ ∀ f ∈ c.closures, f.literal.Forall p
  object : ∀ o, P (.object o) ↔ P (.cls o.cls)
  boundMethod : ∀ i f o owner,
    P (.boundMethod i f o owner) ↔ f.literal.Forall p ∧ P (.object o) ∧ P (.cls owner)
  missing : p .missing → E .missingNode
  unassignable : ∀ target value, p (.assign target value) → target.isAssignable = false →
    E (.invalidTarget target.render)
  runtime : ∀ e, e ≠ .missingNode → (∀ printed, e ≠ .invalidTarget printed) → E e

/-- What a call may give: a value with `P` everywhere or an error with `E`. -/
inductive Answer (P : Value → Prop) (E : RuntimeError → Prop) : Value → Prop where
  | ordinary {v : Value} (h : v.Everywhere P) : Answer P E v
  | failed {e : RuntimeError} (h : E e) : Answer P E (.failed e)

/-- What an evaluation may give: what a call may give, or a `return` with a value with `P`
everywhere. -/
inductive Outcome (P : Value → Prop) (E : RuntimeError → Prop) : Value → Prop where
  | answer {v : Value} (h : Answer P E v) : Outcome P E v
  | returned {v : Value} (h : v.Everywhere P) : Outcome P E (.returned v)

theorem Outcome.ordinary {P : Value → Prop} {E : RuntimeError → Prop} {v : Value}
    (h : v.Everywhere P) : Outcome P E v :=
  .answer (.ordinary h)

theorem Outcome.everywhere {P : Value → Prop} {E : RuntimeError → Prop} {v : Value}
    (h : Outcome P E v) (hv : v.isSignal = false) : v.Everywhere P := by
  rcases h with ⟨h | h⟩ | h
  · exact h
  · cases hv
  · cases hv

/-- What a gathering of values may give: the signal it met, which satisfies `R`, or values that
satisfy `G`. -/
def Gathered {α : Type} (R : Value → Prop) (G : α → Prop) : Except Value α → Prop
  | .error signal => R signal
  | .ok a => G a

/-! ### Methods of a class -/

namespace Class

theorem mem_closures (c : Class) (f : Closure) :
    f ∈ c.closures ↔ ∃ k ∈ c.own :: c.ancestors, ∃ row ∈ k.methods, row.2 = f := by
  simp only [closures, List.mem_flatMap, List.mem_map]

theorem closures_superclass {c k : Class} (h : c.superclass? = some k) :
    ∀ f ∈ k.closures, f ∈ c.closures := by
  obtain ⟨own, ancestors⟩ := c
  cases ancestors with
  | nil => cases h
  | cons parent rest =>
      cases h
      intro f hf
      rw [mem_closures] at hf ⊢
      obtain ⟨b, hb, hrow⟩ := hf
      exact ⟨b, List.mem_cons_of_mem _ hb, hrow⟩

theorem closures_lineageOf (ancestors : List ClassBody) :
    ∀ (own : ClassBody) (k : Class), k ∈ lineageOf own ancestors →
      ∀ f ∈ k.closures, f ∈ (⟨own, ancestors⟩ : Class).closures := by
  induction ancestors with
  | nil =>
      intro own k hk f hf
      rw [lineageOf, List.mem_singleton] at hk
      exact hk ▸ hf
  | cons parent rest ih =>
      intro own k hk f hf
      rw [lineageOf] at hk
      rcases List.mem_cons.mp hk with rfl | hk
      · exact hf
      · exact closures_superclass rfl f (ih parent k hk f hf)

/-- A method that is found belongs to the class, and so do the methods of the class that it is
found on. -/
theorem closures_findMethod? {c : Class} {walk : Bool} {name : String} {f : Closure} {k : Class}
    (h : c.findMethod? walk name = some (f, k)) :
    f ∈ c.closures ∧ ∀ g ∈ k.closures, g ∈ c.closures := by
  obtain ⟨k', hk', hf⟩ := List.exists_of_findSome?_eq_some h
  obtain ⟨method, hmethod, heq⟩ := Option.map_eq_some_iff.mp hf
  cases heq
  have hsub : ∀ g ∈ k.closures, g ∈ c.closures := by
    cases walk with
    | true => exact closures_lineageOf c.ancestors c.own k hk'
    | false =>
        have hkc : k = c := by simpa using hk'
        exact fun g hg => hkc ▸ hg
  refine ⟨hsub f ?_, hsub⟩
  have hrows : Table.All (fun g => g ∈ k.closures) k.own.methods := by
    intro row hrow
    rw [mem_closures]
    exact ⟨k.own, List.mem_cons_self, row, hrow, rfl⟩
  exact hrows.get? hmethod

end Class

namespace Invariant

variable {P : Value → Prop} {E : RuntimeError → Prop} {p : Expr → Prop}

/-- The states that store only values with `P` everywhere. -/
abbrev Safe (P : Value → Prop) : State → Prop :=
  State.Stores fun v => v.Everywhere P

/-! ### Values -/

theorem not_isSignal (inv : Invariant P E p) {v : Value} (h : v.Everywhere P) :
    v.isSignal = false :=
  inv.ordinary v h.head

theorem answer_unwrapReturn (inv : Invariant P E p) {v : Value} (h : Outcome P E v) :
    Answer P E v.unwrapReturn := by
  rcases h with ⟨h | h⟩ | h
  · have hne : ∀ w, v ≠ .returned w := by
      rintro w rfl
      cases inv.not_isSignal h
    rw [Value.unwrapReturn_of_ne hne]
    exact .ordinary h
  · exact .failed h
  · exact .ordinary h

/-- A call gives no `return`. -/
theorem answer_ne_returned (inv : Invariant P E p) {v : Value} (h : Answer P E v) (w : Value) :
    v ≠ .returned w := by
  rintro rfl
  cases h with
  | ordinary h => cases inv.not_isSignal h

theorem everywhere_array (inv : Invariant P E p) (i : Nat) {vs : List Value}
    (h : ∀ v ∈ vs, v.Everywhere P) : (Value.array i vs).Everywhere P :=
  (Value.everywhere_array i vs).mpr ⟨inv.array i vs h, h⟩

theorem everywhere_hash (inv : Invariant P E p) (i : Nat) {pairs : List (Value × Value)}
    (h : ∀ pair ∈ pairs, pair.1.Everywhere P ∧ pair.2.Everywhere P) :
    (Value.hash i
      (Table.ofList (pairs.map fun pair => (pair.1.inspect, pair)))).Everywhere P := by
  refine (Value.everywhere_hash i _).mpr ⟨inv.hash i pairs h, ?_⟩
  refine Table.All.ofList (Q := fun pair : Value × Value =>
    pair.1.Everywhere P ∧ pair.2.Everywhere P) ?_
  intro row hrow
  obtain ⟨pair, hpair, rfl⟩ := List.mem_map.mp hrow
  exact h pair hpair

theorem answer_unary (inv : Invariant P E p) (op : String) (v : Value) :
    Answer P E (Value.unary op v) := by
  unfold Value.unary
  split
  · exact .ordinary (inv.boolean _)
  · exact .ordinary (inv.wrapped _)
  · exact .failed (inv.runtime _ (by simp) (by simp))

theorem answer_binary (inv : Invariant P E p) (v : Value) (op : String) (w : Value) :
    Answer P E (v.binary op w) := by
  have hfail : ∀ e : RuntimeError, e ≠ .missingNode → (∀ printed, e ≠ .invalidTarget printed) →
      Answer P E (.failed e) := fun e h h' => .failed (inv.runtime e h h')
  unfold Value.binary
  split
  · unfold Value.integerBinary
    split
    · exact .ordinary (inv.wrapped _)
    · exact .ordinary (inv.wrapped _)
    · exact .ordinary (inv.wrapped _)
    · split
      · exact hfail _ (by simp) (by simp)
      · exact .ordinary (inv.wrapped _)
    · exact .ordinary (inv.boolean _)
    · exact .ordinary (inv.boolean _)
    · exact .ordinary (inv.boolean _)
    · exact .ordinary (inv.boolean _)
    · exact hfail _ (by simp) (by simp)
  · unfold Value.stringBinary
    split
    · exact .ordinary (inv.string _)
    · exact .ordinary (inv.boolean _)
    · exact .ordinary (inv.boolean _)
    · exact hfail _ (by simp) (by simp)
  · split
    · exact hfail _ (by simp) (by simp)
    · split
      · exact .ordinary (inv.boolean _)
      · split
        · exact .ordinary (inv.boolean _)
        · exact hfail _ (by simp) (by simp)

theorem answer_index (inv : Invariant P E p) {v : Value} (hv : v.Everywhere P) (w : Value) :
    Answer P E (v.index w) := by
  have hnull : Answer P E .null := .ordinary inv.null
  unfold Value.index
  split
  · next i elements n =>
      split
      · cases hget : elements[n.toNat]? with
        | none => exact hnull
        | some u =>
            have hmem : u ∈ elements := List.mem_of_getElem? hget
            exact .ordinary (((Value.everywhere_array i elements).mp hv).2 u hmem)
      · exact hnull
  · next _ i rows =>
      cases hget : Table.get? rows w.inspect with
      | none => exact hnull
      | some pair =>
          have hall : Table.All (fun pair : Value × Value =>
              pair.1.Everywhere P ∧ pair.2.Everywhere P) rows :=
            ((Value.everywhere_hash i rows).mp hv).2
          exact .ordinary (hall.get? hget).2
  · exact .failed (inv.runtime _ (by simp) (by simp))

end Invariant

end Scripting
