import Mathlib.Logic.Relation
import Scripting.Proofs.Run.Calls
import Scripting.Proofs.Run.Part

/-!
# The first signal ends an evaluation

A signal that comes up in a part of a node is what the node gives: nothing behind that part is
evaluated, and the state stays as the part left it. So a `return` or an error passes unchanged
through any nesting of nodes, up to the body of the call, the constructor or the program that it
leaves.

`Part.Gives` follows the parts that give ordinary values, `Part.Reaches` says with which part and
on which state an evaluation goes on behind them.
-/

namespace Scripting

open Eval

namespace Part

section

variable (options : Options) (run : RunBody) (scope : Nat)

/-- Evaluated on a state one after another, the parts give ordinary values and leave a state. -/
inductive Gives : List Part → State → List Value → State → Prop where
  | nil (s : State) : Gives [] s [] s
  | cons {part : Part} {rest : List Part} {s t u : State} {v : Value} {vs : List Value}
      (hvalue : (part.eval options run scope).runOn s = (some v, t)) (hv : v.isSignal = false)
      (hrest : Gives rest t vs u) : Gives (part :: rest) s (v :: vs) u

/-- Evaluated on the state `s`, a node comes to its part number `k` on the state `t`: all parts
before it give ordinary values. -/
def Reaches (node : Part) (s : State) (k : Nat) (part : Part) (t : State) : Prop :=
  ∃ earlier later vs, node.parts vs = earlier ++ part :: later ∧ earlier.length = k ∧
    Gives options run scope earlier s vs t

/-- A part of a node, a part of a part and so on, that an evaluation comes to, with the states on
which the outermost and the innermost are evaluated. -/
def Encloses (outer : Part) (s : State) (part : Part) (t : State) : Prop :=
  Relation.ReflTransGen
    (fun a b : Part × State => ∃ k, a.1.Reaches options run scope a.2 k b.1 b.2)
    (outer, s) (part, t)

end

variable {options : Options} {run : RunBody} {scope : Nat}

/-! ### Behind parts that give ordinary values -/

/-- A signal behind parts that give ordinary values ends the gathering. -/
theorem Gives.runOn_evalAll {earlier : List Part} {part : Part} {s t u : State} {vs : List Value}
    {v : Value} (h : Gives options run scope earlier s vs t)
    (hsignal : (part.eval options run scope).runOn t = (some v, u)) (hv : v.isSignal = true)
    (later : List Part) :
    (evalAll options run scope (earlier ++ part :: later)).runOn s = (some (.error v), u) := by
  induction h with
  | nil =>
      rw [List.nil_append, evalAll, runOn_bind_of_some hsignal, if_pos hv]
      rfl
  | cons hvalue hw _ ih =>
      rw [List.cons_append, evalAll, runOn_bind_of_some hvalue,
        if_neg (Bool.eq_false_iff.mp hw), runOn_bind_of_some (ih hsignal)]
      rfl

/-- Of parts evaluated one after another none behind a signal is evaluated. -/
theorem Gives.length_le_of_signal {earlier earlier' later later' : List Part} {part : Part}
    {s t t' u : State} {vs vs' : List Value} {v : Value}
    (h : Gives options run scope earlier s vs t)
    (hsignal : (part.eval options run scope).runOn t = (some v, u)) (hv : v.isSignal = true)
    (h' : Gives options run scope earlier' s vs' t')
    (hparts : earlier ++ part :: later = earlier' ++ later') :
    earlier'.length ≤ earlier.length := by
  induction h generalizing earlier' vs' with
  | nil =>
      cases h' with
      | nil => exact Nat.le_refl _
      | cons hvalue hw _ =>
          cases hparts
          rw [hsignal] at hvalue
          cases hvalue
          rw [hv] at hw
          cases hw
  | cons hvalue _ _ ih =>
      cases h' with
      | nil => exact Nat.zero_le _
      | cons hvalue' _ hrest' =>
          obtain ⟨rfl, hsame⟩ := List.cons.inj hparts
          rw [hvalue] at hvalue'
          cases hvalue'
          exact Nat.succ_le_succ (ih hsignal hrest' hsame)

/-- A gathering of parts passes only through states that one of the parts it comes to passes
through. -/
theorem exists_gives_of_passes_evalAll {ps : List Part} {s w : State}
    (h : (evalAll options run scope ps).Passes s w) :
    w = s ∨ ∃ earlier part later vs t, ps = earlier ++ part :: later ∧
      Gives options run scope earlier s vs t ∧ (part.eval options run scope).Passes t w := by
  induction ps generalizing s with
  | nil => exact .inl h
  | cons part rest ih =>
      have hfirst (hw : (part.eval options run scope).Passes s w) :
          ∃ earlier part' later vs t, part :: rest = earlier ++ part' :: later ∧
            Gives options run scope earlier s vs t ∧ (part'.eval options run scope).Passes t w :=
        ⟨[], part, rest, [], s, rfl, .nil s, hw⟩
      rw [evalAll] at h
      rcases h with h | ⟨v, u, hvalue, h⟩
      · exact .inr (hfirst h)
      · have hend : (part.eval options run scope).Passes s u := passes_of_runOn hvalue
        dsimp only at h
        split at h
        · cases h
          exact .inr (hfirst hend)
        · next hv =>
            have hrest : (evalAll options run scope rest).Passes u w := by
              rcases h with h | ⟨r, u', hr, h⟩
              · exact h
              · cases h
                exact passes_of_runOn hr
            rcases ih hrest with rfl | ⟨earlier, part', later, vs, t, rfl, hgives, hw⟩
            · exact .inr (hfirst hend)
            · exact .inr ⟨part :: earlier, part', later, v :: vs, t, rfl,
                .cons hvalue (Bool.eq_false_iff.mpr hv) hgives, hw⟩

/-! ### One node -/

variable {node part : Part} {s t u : State} {k : Nat} {v : Value}

/-- The first part of a node that comes to one, and what is known of it behind the first part. -/
theorem Reaches.head (h : node.Reaches options run scope s k part t) :
    ((node.parts []).head? = some part ∧ k = 0 ∧ s = t) ∨
      ∃ first earlier later w ws s', (node.parts []).head? = some first ∧
        node.parts [w] = first :: (earlier ++ part :: later) ∧ k = earlier.length + 1 ∧
        (first.eval options run scope).runOn s = (some w, s') ∧ w.isSignal = false ∧
        Gives options run scope earlier s' ws t := by
  obtain ⟨earlier, later, vs, hparts, rfl, hgives⟩ := h
  cases hgives with
  | nil => exact .inl ⟨by simp [hparts], rfl, rfl⟩
  | @cons first rest _ s' _ w ws hvalue hw hrest =>
      rw [parts_cons] at hparts
      have hfirst : (node.parts []).head? = some first := by
        simp [← head?_parts node w, hparts]
      exact .inr ⟨first, rest, later, w, ws, s', hfirst, hparts, rfl, hvalue, hw, hrest⟩

/-- What a node gives when one of its parts gives a signal. -/
theorem Reaches.runOn_eval (h : node.Reaches options run scope s k part t)
    (hsignal : (part.eval options run scope).runOn t = (some v, u)) (hv : v.isSignal = true) :
    (node.eval options run scope).runOn s = (some v, u) := by
  rw [eval_eq]
  rcases h.head with ⟨hfirst, -, rfl⟩ |
    ⟨first, earlier, later, w, ws, s', hfirst, hparts, -, hvalue, hw, hgives⟩
  · rw [evalInOrder_of_head hfirst, runOn_onValue, hsignal]
    exact if_pos hv
  · rw [evalInOrder_of_head hfirst, runOn_onValue, hvalue]
    dsimp only
    rw [if_neg (Bool.eq_false_iff.mp hw), hparts, List.tail_cons, onGathered,
      runOn_bind_of_some (hgives.runOn_evalAll hsignal hv later)]
    rfl

/-- No part behind a signal is evaluated. -/
theorem Reaches.le_of_signal (h : node.Reaches options run scope s k part t)
    (hsignal : (part.eval options run scope).runOn t = (some v, u)) (hv : v.isSignal = true)
    {k' : Nat} {part' : Part} {t' : State} (h' : node.Reaches options run scope s k' part' t') :
    k' ≤ k := by
  rcases h.head with ⟨hfirst, rfl, rfl⟩ |
    ⟨first, earlier, later, w, ws, s', hfirst, hparts, rfl, hvalue, hw, hgives⟩
  · rcases h'.head with ⟨-, rfl, -⟩ |
      ⟨first', _, _, w', _, _, hfirst', -, -, hvalue', hw', -⟩
    · exact Nat.le_refl _
    · cases hfirst.symm.trans hfirst'
      cases hsignal.symm.trans hvalue'
      cases hv.symm.trans hw'
  · rcases h'.head with ⟨-, rfl, -⟩ |
      ⟨first', earlier', later', w', ws', s'', hfirst', hparts', rfl, hvalue', hw', hgives'⟩
    · exact Nat.zero_le _
    · cases hfirst.symm.trans hfirst'
      cases hvalue.symm.trans hvalue'
      have hsame := (List.cons.inj (hparts.symm.trans hparts')).2
      exact Nat.succ_le_succ (hgives.length_le_of_signal hsignal hv hgives' hsame)

/-- Up to a signal, a node passes only through states that one of the parts it comes to passes
through. -/
theorem Reaches.exists_of_passes (h : node.Reaches options run scope s k part t)
    (hsignal : (part.eval options run scope).runOn t = (some v, u)) (hv : v.isSignal = true)
    {w : State} (hw : (node.eval options run scope).Passes s w) :
    ∃ k' part' t', node.Reaches options run scope s k' part' t' ∧
      (part'.eval options run scope).Passes t' w := by
  obtain ⟨first, hfirst⟩ : ∃ first, (node.parts []).head? = some first := by
    rcases h.head with ⟨hfirst, -⟩ | ⟨first, -, -, -, -, -, hfirst, -⟩
    · exact ⟨part, hfirst⟩
    · exact ⟨first, hfirst⟩
  obtain ⟨rest, hparts⟩ := List.head?_eq_some_iff.mp hfirst
  have hhead (hw : (first.eval options run scope).Passes s w) :
      ∃ k' part' t', node.Reaches options run scope s k' part' t' ∧
        (part'.eval options run scope).Passes t' w :=
    ⟨0, first, s, ⟨[], rest, [], hparts, rfl, .nil s⟩, hw⟩
  rw [eval_eq, evalInOrder_of_head hfirst] at hw
  rcases hw with hw | ⟨a, s', ha, hw⟩
  · exact hhead hw
  · have hend : (first.eval options run scope).Passes s s' := passes_of_runOn ha
    dsimp only at hw
    split at hw
    · cases hw
      exact hhead hend
    · next hsig =>
        rcases h.head with ⟨hpart, -, rfl⟩ |
          ⟨first', earlier, later, a', as, s'', hfirst', htail, -, hvalue, ha', hgives⟩
        · cases hpart.symm.trans hfirst
          cases hsignal.symm.trans ha
          exact absurd hv hsig
        · cases hfirst.symm.trans hfirst'
          cases ha.symm.trans hvalue
          have hgathered := hgives.runOn_evalAll hsignal hv later
          rw [htail, List.tail_cons] at hw
          have hpasses : (evalAll options run scope (earlier ++ part :: later)).Passes s' w := by
            rcases hw with hw | ⟨r, u', hr, hw⟩
            · exact hw
            · cases hgathered.symm.trans hr
              cases hw
              exact passes_of_runOn hgathered
          rcases exists_gives_of_passes_evalAll hpasses with
            rfl | ⟨earlier', part', later', vs', t', hsplit, hgives', hw⟩
          · exact hhead hend
          · refine ⟨earlier'.length + 1, part', t', ?_, hw⟩
            refine ⟨first :: earlier', later', a :: vs', ?_, rfl, .cons hvalue ha' hgives'⟩
            rw [parts_cons, htail, hsplit, List.cons_append]

/-! ### Nested nodes -/

/-- A signal comes out of any nesting of nodes as it is. -/
theorem Encloses.runOn_eval {outer : Part} {r : State}
    (h : outer.Encloses options run scope r part t)
    (hsignal : (part.eval options run scope).runOn t = (some v, u)) (hv : v.isSignal = true) :
    (outer.eval options run scope).runOn r = (some v, u) := by
  have hall (a : Part × State)
      (ha : Relation.ReflTransGen
        (fun a b : Part × State => ∃ k, a.1.Reaches options run scope a.2 k b.1 b.2) a (part, t)) :
      (a.1.eval options run scope).runOn a.2 = (some v, u) := by
    induction ha using Relation.ReflTransGen.head_induction_on with
    | refl => exact hsignal
    | head hstep _ ih =>
        obtain ⟨k, hreaches⟩ := hstep
        exact hreaches.runOn_eval ih hv
  exact hall _ h

end Part

/-- When all parts before it gave ordinary values and a part of a node gives a signal, the node
gives that signal and leaves the state as the part left it. No part behind it is evaluated, and the
node passes through no other states than the parts up to this one. The signal comes out of every
nesting of nodes: out of a program, a called function and a constructor. -/
theorem signals_end_evaluation (options : Options) (depth scope : Nat) {node part : Part}
    {s t u : State} {k : Nat} {v : Value}
    (h : node.Reaches options (runBody options depth) scope s k part t)
    (hsignal : (part.eval options (runBody options depth) scope).runOn t = (some v, u))
    (hv : v.isSignal = true) :
    (node.eval options (runBody options depth) scope).runOn s = (some v, u) ∧
      (∀ (k' : Nat) (part' : Part) (t' : State),
        node.Reaches options (runBody options depth) scope s k' part' t' → k' ≤ k) ∧
      (∀ w : State, (node.eval options (runBody options depth) scope).Passes s w →
        ∃ k' part' t', node.Reaches options (runBody options depth) scope s k' part' t' ∧
          (part'.eval options (runBody options depth) scope).Passes t' w) ∧
      (∀ (outer : Part) (r : State), outer.Encloses options (runBody options depth) scope r node s →
        (outer.eval options (runBody options depth) scope).runOn r = (some v, u)) ∧
      (∀ (program : Block) (r : State),
        (Part.block program).Encloses options (runBody options depth) scope r node s →
        (Block.evalProgram options (runBody options depth) scope program).runOn r =
          (some v.unwrapReturn, u)) ∧
      (∀ (f : Closure) (args : List Value) (receiver : Option Object) (owner : Option Class)
        (r : State), scope = r.scopes.size →
        (Part.block f.body).Encloses options (runBody options depth) scope
          (r.withScope f.scope (callTable options f args receiver owner)) node s →
        (callFunction options (runBody options (depth + 1)) f args receiver owner).runOn r =
          (some v.unwrapReturn, u)) ∧
      ∀ (c : Class) (method : Closure) (owner : Class) (args : List Value) (r : State),
        scope = r.scopes.size →
        c.findMethod? options.walksSuperclasses "constructor" = some (method, owner) →
        (Part.block method.body).Encloses options (runBody options depth) scope
          ((r.withObject c).withScope method.scope
            (constructorTable method args ⟨r.properties.size, c⟩ owner)) node s →
        (makeObject options (runBody options (depth + 1)) (.cls c) args).runOn r =
          (some (if v.isError then v else .object ⟨r.properties.size, c⟩), u) := by
  have hnode := h.runOn_eval hsignal hv
  have hnested : ∀ (outer : Part) (r : State),
      outer.Encloses options (runBody options depth) scope r node s →
        (outer.eval options (runBody options depth) scope).runOn r = (some v, u) :=
    fun _ _ houter => houter.runOn_eval hnode hv
  refine ⟨hnode, fun _ _ _ h' => h.le_of_signal hsignal hv h',
    fun _ hw => h.exists_of_passes hsignal hv hw, hnested, ?_, ?_, ?_⟩
  · intro program r houter
    exact runOn_bind_of_some (hnested _ _ houter)
  · rintro f args receiver owner r rfl houter
    exact runOn_callFunction (hnested _ _ houter)
  · rintro c method owner args r rfl hmethod houter
    exact runOn_makeObject hmethod (hnested _ _ houter)

/-- A list in which a `return` stands between a text and a call that would print. -/
def interruptedList : Expr :=
  .array [.str "first", .cond (.bool true) [.ret (.str "given")] none,
    .call (.ident "print") [.str "late"]]

/-- The state with one root scope, before anything has run. -/
def State.oneScope : State :=
  { State.initial with scopes := State.initial.scopes.addRoot }

theorem signals_end_evaluation_inside_list :
    (Part.expr interruptedList).Reaches {} (runBody {} 3) 0 .oneScope 1
        (.expr (.cond (.bool true) [.ret (.str "given")] none)) .oneScope ∧
      (Block.evalProgram {} (runBody {} 3) 0 [.letIn "lost" interruptedList]).runOn .oneScope =
        (some (.string "given"), .oneScope) := by
  have hreaches : (Part.expr interruptedList).Reaches {} (runBody {} 3) 0 .oneScope 1
      (.expr (.cond (.bool true) [.ret (.str "given")] none)) .oneScope :=
    ⟨[.expr (.str "first")], _, [.string "first"], rfl, rfl, .cons rfl rfl (.nil _)⟩
  have hstmt : (Part.block [.letIn "lost" interruptedList]).Encloses {} (runBody {} 3) 0 .oneScope
      (.stmt (.letIn "lost" interruptedList)) .oneScope :=
    .single ⟨0, [], [], [], rfl, rfl, .nil _⟩
  have hlist : (Part.block [.letIn "lost" interruptedList]).Encloses {} (runBody {} 3) 0 .oneScope
      (.expr interruptedList) .oneScope :=
    hstmt.tail ⟨0, [], [], [], rfl, rfl, .nil _⟩
  have hsignal : ((Part.expr (.cond (.bool true) [.ret (.str "given")] none)).eval {}
      (runBody {} 3) 0).runOn .oneScope = (some (.returned (.string "given")), .oneScope) := rfl
  obtain ⟨-, -, -, -, hprogram, -⟩ := signals_end_evaluation {} 3 0 hreaches hsignal rfl
  exact ⟨hreaches, hprogram _ _ hlist⟩

end Scripting
