import Scripting.Proofs.Run.Judgment

/-!
# The course of a run

`x.Follows R Q s` says that `x`, run on the state `s`, passes only through states to which `R` leads
from `s`, and that what it gives satisfies `Q` in the state that it leaves. Unlike an invariant, `R`
speaks of two states, so it can say what a run leaves alone; and `Q` may depend on the state, so a
value can be known by what the state holds of it.

There is a rule for each way of putting computations together, so following a course is a judgment
along the tree: a node follows its course if its parts do and its last step does
(`Part.Held.follows_eval`).
-/

namespace Scripting

/-- A relation that a run can follow step by step: it leads on from where it leads to, and a state
to which it leads is followed by itself. -/
structure Course (R : State → State → Prop) : Prop where
  trans : ∀ {s t u}, R s t → R t u → R s u
  stay : ∀ {s t}, R s t → R t t

namespace Eval

variable {α β γ : Type} {R R' : State → State → Prop} {s : State}

/-- Run on `s`, a computation passes only through states to which `R` leads from `s`, and what it
gives satisfies `Q` in the state that it leaves. -/
def Follows (R : State → State → Prop) (Q : State → α → Prop) (x : Eval α) (s : State) : Prop :=
  (∀ t, x.Passes s t → R s t) ∧ ∀ a t, x.runOn s = (some a, t) → Q t a

section

variable {Q : State → α → Prop} {Q' : State → β → Prop}

theorem Follows.passes {x : Eval α} (h : x.Follows R Q s) {t : State} (ht : x.Passes s t) : R s t :=
  h.1 t ht

theorem Follows.result {x : Eval α} (h : x.Follows R Q s) {a : α} {t : State}
    (ha : x.runOn s = (some a, t)) : R s t ∧ Q t a :=
  ⟨h.1 t (passes_of_runOn ha), h.2 a t ha⟩

theorem Follows.mono {Q₁ : State → α → Prop} {x : Eval α} (h : x.Follows R Q s)
    (hR : ∀ t, R s t → R' s t) (hQ : ∀ t a, R s t → Q t a → Q₁ t a) : x.Follows R' Q₁ s :=
  ⟨fun t ht => hR t (h.passes ht), fun a t ha => hQ t a (h.result ha).1 (h.result ha).2⟩

theorem Follows.pure {a : α} (hs : R s s) (ha : Q s a) : (pure a : Eval α).Follows R Q s := by
  constructor
  · rintro t ⟨⟩
    exact hs
  · rintro b t ⟨⟩
    exact ha

theorem Follows.tooDeep (hs : R s s) : (tooDeep : Eval α).Follows R Q s := by
  constructor
  · rintro t ⟨⟩
    exact hs
  · intro a t ha
    cases ha

theorem Follows.act {f : State → α × State} (hs : R s s) (hR : R s (f s).2)
    (hQ : Q (f s).2 (f s).1) : (act f).Follows R Q s := by
  constructor
  · rintro t (rfl | rfl)
    · exact hs
    · exact hR
  · rintro a t ⟨⟩
    exact hQ

/-- What comes second runs on the state that the first left. -/
theorem Follows.bind (hR : Course R) {x : Eval α} {f : α → Eval β} (hx : x.Follows R Q s)
    (hf : ∀ a t, R s t → Q t a → (f a).Follows R Q' t) : (x >>= f).Follows R Q' s := by
  have hsecond {a : α} {u : State} (hu : x.runOn s = (some a, u)) : (f a).Follows R Q' u :=
    hf a u (hx.result hu).1 (hx.result hu).2
  constructor
  · rintro t (ht | ⟨a, u, hu, ht⟩)
    · exact hx.passes ht
    · exact hR.trans (hx.result hu).1 ((hsecond hu).passes ht)
  · intro b t hb
    rw [runOn_bind] at hb
    obtain ⟨r, u, hu⟩ : ∃ r u, x.runOn s = (r, u) := ⟨_, _, rfl⟩
    rw [hu] at hb
    cases r with
    | none => cases hb
    | some a => exact ((hsecond hu).result hb).2

end

/-- Computations one after another of which nothing is known but their course. -/
theorem Follows.mapM (hR : Course R) {f : γ → Eval α} :
    ∀ (cs : List γ) {s : State}, R s s →
      (∀ c ∈ cs, ∀ t, R s t → (f c).Follows R (fun _ _ => True) t) →
      (cs.mapM f).Follows R (fun _ _ => True) s
  | [], _, hs, _ => Follows.pure hs trivial
  | c :: cs, s, hs, hf => by
      rw [List.mapM_cons]
      refine (hf c List.mem_cons_self s hs).bind hR fun a t ht _ => ?_
      refine Follows.bind hR (Follows.mapM hR cs (hR.stay ht) fun b hb u hu => ?_) ?_
      · exact hf b (List.mem_cons_of_mem _ hb) u (hR.trans ht hu)
      · exact fun as u hu _ => Follows.pure (hR.stay hu) trivial

theorem Follows.forM (hR : Course R) {f : γ → Eval Unit} (cs : List γ) :
    ∀ {s : State}, R s s → (∀ c t, R s t → (f c).Follows R (fun _ _ => True) t) →
      (cs.forM f).Follows R (fun _ _ => True) s := by
  induction cs with
  | nil => exact fun hs _ => Follows.pure hs trivial
  | cons c cs ih =>
      intro s hs hf
      refine (hf c s hs).bind hR fun _ t ht _ => ?_
      exact ih (hR.stay ht) fun b u hu => hf b u (hR.trans ht hu)

/-- A part and what uses its value. -/
theorem Follows.onValue (hR : Course R) {Q : State → Value → Prop} {x : Eval Value}
    {f : Value → Eval Value} (hx : x.Follows R Q s)
    (hf : ∀ v t, R s t → Q t v → (f v).Follows R Q t) : (x.onValue f).Follows R Q s := by
  refine hx.bind hR fun v t ht hv => ?_
  split
  · exact Follows.pure (hR.stay ht) hv
  · exact hf v t ht hv

end Eval

namespace Part

open Eval

/-- What the evaluation of nodes in a scope is held to: which nodes may be evaluated in a state
(`A`), where a node leads from a state (`R`) and what a node gives (`Q`). A node is held to it if
its parts are and if its last step is. -/
structure Held (options : Options) (run : RunBody) (scope : Nat) (A : State → Part → Prop)
    (R : Part → State → State → Prop) (Q : State → Value → Prop) : Prop where
  course : ∀ node, Course (R node)
  start : ∀ {node s}, A s node → R node s s
  admitted : ∀ {node s t}, A s node → R node s t → A t node
  value : ∀ {node s t v}, R node s t → Q s v → Q t v
  part_admitted : ∀ {node part s vs}, A s node → (∀ v ∈ vs, Q s v) → part ∈ node.parts vs → A s part
  part_course : ∀ {node part s t vs}, part ∈ node.parts vs → R part s t → R node s t
  finish : ∀ {node s vs}, A s node → (∀ v ∈ vs, Q s v) → vs.length = (node.parts vs).length →
    (node.finish options run scope vs).Follows (R node) Q s

variable {options : Options} {run : RunBody} {scope : Nat} {A : State → Part → Prop}
  {R : Part → State → State → Prop} {Q : State → Value → Prop}

namespace Held

/-- Following a course is a judgment: what is later is where the course of a node leads. -/
def judgment (h : Held options run scope A R Q) : Judgment options run scope State where
  Judged node s x := x.Follows (R node) Q s
  Later := R
  Admitted := A
  Good := Q
  trans := (h.course _).trans
  stay := (h.course _).stay
  start := h.start
  admitted := h.admitted
  good := h.value
  onValue := Follows.onValue (h.course _)
  part_admitted := h.part_admitted
  part_judged hpart hx := hx.mono (fun _ hs => h.part_course hpart hs) fun _ _ _ hv => hv
  finish := h.finish

/-- Every admitted node follows its course. -/
theorem follows_eval (h : Held options run scope A R Q) {node : Part} {s : State}
    (hnode : A s node) : (node.eval options run scope).Follows (R node) Q s :=
  h.judgment.judged_eval hnode

end Held

end Part

end Scripting
