import Scripting.Run.State

/-!
# Computations that keep an invariant

`x.Keeps I Q` says that `x`, run on a state with `I`, passes only through states with `I`, and that
its result, if there is one, satisfies `Q`. There is a rule for each way of putting computations
together; what an act has to do is stated for the one change that it makes.
-/

namespace Scripting

namespace Eval

variable {α β : Type} {I : State → Prop} {Q : α → Prop} {R : β → Prop}

/-- From a state with `I`, a computation passes only through states with `I` and gives a result
that satisfies `Q`. -/
def Keeps (I : State → Prop) (Q : α → Prop) (x : Eval α) : Prop :=
  ∀ s, I s → (∀ t, x.Passes s t → I t) ∧ ∀ a, (x.runOn s).1 = some a → Q a

theorem Keeps.after {x : Eval α} (h : x.Keeps I Q) {s : State} (hs : I s) : I (x.runOn s).2 :=
  (h s hs).1 _ (x.passes_end s)

theorem Keeps.result {x : Eval α} (h : x.Keeps I Q) {s : State} (hs : I s) {a : α}
    (ha : (x.runOn s).1 = some a) : Q a :=
  (h s hs).2 a ha

theorem Keeps.mono {x : Eval α} {Q' : α → Prop} (h : x.Keeps I Q) (hQ : ∀ a, Q a → Q' a) :
    x.Keeps I Q' := fun s hs =>
  ⟨(h s hs).1, fun a ha => hQ a ((h s hs).2 a ha)⟩

theorem Keeps.pure {a : α} (h : Q a) : (pure a : Eval α).Keeps I Q := by
  intro s hs
  refine ⟨fun t ht => ?_, fun b hb => ?_⟩
  · rw [passes_pure] at ht
    exact ht ▸ hs
  · cases hb
    exact h

theorem Keeps.tooDeep : (tooDeep : Eval α).Keeps I Q := by
  intro s hs
  refine ⟨fun t ht => ?_, fun a ha => by cases ha⟩
  rw [passes_tooDeep] at ht
  exact ht ▸ hs

theorem Keeps.act {f : State → α × State} (h : ∀ s, I s → I (f s).2 ∧ Q (f s).1) :
    (act f).Keeps I Q := by
  intro s hs
  refine ⟨fun t ht => ?_, fun a ha => ?_⟩
  · rcases ht with rfl | rfl
    · exact hs
    · exact (h s hs).1
  · cases ha
    exact (h s hs).2

theorem Keeps.bind {x : Eval α} {f : α → Eval β} (hx : x.Keeps I Q)
    (hf : ∀ a, Q a → (f a).Keeps I R) : (x >>= f).Keeps I R := by
  intro s hs
  constructor
  · intro t ht
    rcases ht with ht | ⟨a, u, hu, ht⟩
    · exact (hx s hs).1 t ht
    · have hmid : I u := by
        have hend := hx.after hs
        rwa [hu] at hend
      have ha : Q a := hx.result hs (by rw [hu])
      exact (hf a ha u hmid).1 t ht
  · intro b hb
    rw [runOn_bind] at hb
    obtain ⟨r, u, hu⟩ : ∃ r u, x.runOn s = (r, u) := ⟨_, _, rfl⟩
    rw [hu] at hb
    cases r with
    | none => cases hb
    | some a =>
        have hmid : I u := by
          have hend := hx.after hs
          rwa [hu] at hend
        have ha : Q a := hx.result hs (by rw [hu])
        exact (hf a ha u hmid).2 b hb

theorem Keeps.mapM {γ : Type} {f : γ → Eval α} :
    ∀ cs : List γ, (∀ c ∈ cs, (f c).Keeps I Q) → (cs.mapM f).Keeps I fun as => ∀ a ∈ as, Q a
  | [], _ => by
      rw [List.mapM_nil]
      exact Keeps.pure fun a ha => absurd ha List.not_mem_nil
  | c :: cs, h => by
      have htail : (cs.mapM f).Keeps I fun as => ∀ a ∈ as, Q a :=
        Keeps.mapM cs fun b hb => h b (List.mem_cons_of_mem _ hb)
      rw [List.mapM_cons]
      refine (h c List.mem_cons_self).bind fun a ha => htail.bind fun as has => Keeps.pure ?_
      intro b hb
      rcases List.mem_cons.mp hb with rfl | hb
      · exact ha
      · exact has b hb

theorem Keeps.forM {γ : Type} {f : γ → Eval Unit} (hf : ∀ c, (f c).Keeps I fun _ => True) :
    ∀ cs : List γ, (cs.forM f).Keeps I fun _ => True
  | [] => Keeps.pure trivial
  | c :: cs => (hf c).bind fun _ _ => Keeps.forM hf cs

end Eval

end Scripting
