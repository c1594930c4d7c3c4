import Scripting.Scopes
import Scripting.Value.Operator

/-!
# The state of a run

All that a script can change: the bindings of the scopes, the properties of the objects, the
identities given out so far and the text printed so far. A computation of the evaluator reads and
changes a state; it gives a result, or none when bodies were nested too deeply, and either way the
state it leaves stays.

A computation is put together from acts, each of which reads and changes the state once. Between
its acts it passes through states that nobody sees from outside; `Eval.Passes` keeps them for
statements about every moment of a run. It is a proposition, so nothing of it is computed.
-/

namespace Scripting

/-- What a script can change. -/
structure State where
  scopes : Scopes Value
  /-- The properties of each object, by its identity. -/
  properties : Array (Table Value)
  /-- The identity that the next list, map, function, class or bound method gets. -/
  nextIdent : Nat
  /-- What has been printed. -/
  output : String

/-- The state before anything has run, without any scope. -/
def State.initial : State :=
  ⟨.empty, #[], 0, ""⟩

instance : Inhabited State := ⟨.initial⟩

/-- Computations on a state. -/
structure Eval (α : Type) where
  /-- Runs a computation on a state. There is no result when bodies were nested too deeply. -/
  runOn : State → Option α × State
  /-- `Passes s t` when the computation, run on `s`, passes through the state `t`. -/
  Passes : State → State → Prop
  passes_start : ∀ s, Passes s s
  passes_end : ∀ s, Passes s (runOn s).2

namespace Eval

variable {α β : Type}

theorem ext {x y : Eval α} (hrun : x.runOn = y.runOn) (hpasses : x.Passes = y.Passes) : x = y := by
  cases x
  cases y
  simp only at hrun hpasses
  subst hrun hpasses
  rfl

theorem passes_of_runOn {x : Eval α} {s t : State} {r : Option α} (h : x.runOn s = (r, t)) :
    x.Passes s t := by
  have hend := x.passes_end s
  rwa [h] at hend

/-- Reads and changes the state once. -/
def act (f : State → α × State) : Eval α where
  runOn s := (some (f s).1, (f s).2)
  Passes s t := t = s ∨ t = (f s).2
  passes_start _ := .inl rfl
  passes_end _ := .inr rfl

@[simp] theorem runOn_act (f : State → α × State) (s : State) :
    (act f).runOn s = (some (f s).1, (f s).2) := rfl

@[simp] theorem passes_act (f : State → α × State) (s t : State) :
    (act f).Passes s t ↔ t = s ∨ t = (f s).2 := Iff.rfl

/-- Gives up because bodies are nested too deeply. -/
def tooDeep : Eval α where
  runOn s := (none, s)
  Passes s t := t = s
  passes_start _ := rfl
  passes_end _ := rfl

@[simp] theorem runOn_tooDeep (s : State) : (tooDeep : Eval α).runOn s = (none, s) := rfl

@[simp] theorem passes_tooDeep (s t : State) : (tooDeep : Eval α).Passes s t ↔ t = s := Iff.rfl

instance : Monad Eval where
  pure a :=
    { runOn s := (some a, s)
      Passes s t := t = s
      passes_start _ := rfl
      passes_end _ := rfl }
  bind x f :=
    { runOn s :=
        match x.runOn s with
        | (some a, t) => (f a).runOn t
        | (none, t) => (none, t)
      Passes s t := x.Passes s t ∨ ∃ a u, x.runOn s = (some a, u) ∧ (f a).Passes u t
      passes_start s := .inl (x.passes_start s)
      passes_end s := by
        obtain ⟨r, u, hx⟩ : ∃ r u, x.runOn s = (r, u) := ⟨_, _, rfl⟩
        cases r with
        | none =>
            have h := x.passes_end s
            rw [hx] at h ⊢
            exact .inl h
        | some a =>
            rw [hx]
            exact .inr ⟨a, u, rfl, (f a).passes_end u⟩ }

@[simp] theorem runOn_pure (a : α) (s : State) : (pure a : Eval α).runOn s = (some a, s) := rfl

@[simp] theorem passes_pure (a : α) (s t : State) : (pure a : Eval α).Passes s t ↔ t = s := Iff.rfl

theorem runOn_bind (x : Eval α) (f : α → Eval β) (s : State) :
    (x >>= f).runOn s =
      match x.runOn s with
      | (some a, t) => (f a).runOn t
      | (none, t) => (none, t) := rfl

/-- Behind a result a chain goes on from the state that was left. -/
theorem runOn_bind_of_some {x : Eval α} {f : α → Eval β} {s t : State} {a : α}
    (h : x.runOn s = (some a, t)) : (x >>= f).runOn s = (f a).runOn t := by
  rw [runOn_bind, h]

/-- A chain passes through the states of its first part and, where that has a result, through
those of the part behind it. -/
theorem passes_bind (x : Eval α) (f : α → Eval β) (s t : State) :
    (x >>= f).Passes s t ↔
      x.Passes s t ∨ ∃ a u, x.runOn s = (some a, u) ∧ (f a).Passes u t := Iff.rfl

instance : LawfulMonad Eval := LawfulMonad.mk' Eval
  (fun x => by
    apply ext
    · funext s
      change (match x.runOn s with | (some a, t) => (some a, t) | (none, t) => (none, t)) = _
      obtain ⟨r, u, hx⟩ : ∃ r u, x.runOn s = (r, u) := ⟨_, _, rfl⟩
      rw [hx]
      cases r <;> rfl
    · funext s t
      refine propext ⟨?_, .inl⟩
      rintro (h | ⟨a, u, hx, rfl⟩)
      · exact h
      · have h := x.passes_end s
        rwa [hx] at h)
  (fun a f => by
    apply ext
    · rfl
    · funext s t
      refine propext ⟨?_, fun h => .inr ⟨a, s, rfl, h⟩⟩
      rintro (rfl | ⟨b, u, hb, h⟩)
      · exact (f a).passes_start _
      · cases hb
        exact h)
  (fun x f g => by
    apply ext
    · funext s
      simp only [runOn_bind]
      obtain ⟨r, u, hx⟩ : ∃ r u, x.runOn s = (r, u) := ⟨_, _, rfl⟩
      rw [hx]
      cases r <;> rfl
    · funext s t
      refine propext ?_
      simp only [passes_bind, runOn_bind]
      constructor
      · rintro ((h | ⟨a, u, hx, h⟩) | ⟨b, v, hb, h⟩)
        · exact .inl h
        · exact .inr ⟨a, u, hx, .inl h⟩
        · obtain ⟨r, u, hx⟩ : ∃ r u, x.runOn s = (r, u) := ⟨_, _, rfl⟩
          rw [hx] at hb
          cases r with
          | none => cases hb
          | some a => exact .inr ⟨a, u, hx, .inr ⟨b, v, hb, h⟩⟩
      · rintro (h | ⟨a, u, hx, h | ⟨b, v, hf, h⟩⟩)
        · exact .inl (.inl h)
        · exact .inl (.inr ⟨a, u, hx, h⟩)
        · refine .inr ⟨b, v, ?_, h⟩
          rw [hx]
          exact hf)

/-- Goes on with a value; a signal is the result at once. -/
def onValue (x : Eval Value) (f : Value → Eval Value) : Eval Value := do
  let value ← x
  if value.isSignal then pure value else f value

/-- Goes on with what was gathered from several values; a signal among them is the result at
once. -/
def onGathered (x : Eval (Except Value α)) (f : α → Eval Value) : Eval Value := do
  match ← x with
  | .error signal => pure signal
  | .ok a => f a

/-- Gives a runtime error. -/
def fail (error : RuntimeError) : Eval Value :=
  pure (.failed error)

/-- A fresh identity. -/
def freshIdent : Eval Nat :=
  act fun s => (s.nextIdent, { s with nextIdent := s.nextIdent + 1 })

/-- Prints a line. Whatever is printed is taken: a stream that refuses a character is the host's
affair. -/
def printLine (line : String) : Eval Unit :=
  act fun s => ((), { s with output := s.output ++ line ++ "\n" })

/-- What a name stands for in a scope. -/
def lookup (scope : Nat) (name : String) : Eval (Option Value) :=
  act fun s => (s.scopes.get? scope name, s)

/-- Binds a name in a scope itself. -/
def bindName (scope : Nat) (name : String) (value : Value) : Eval Unit :=
  act fun s => ((), { s with scopes := s.scopes.set scope name value })

/-- Rebinds a name where it is bound; tells whether it is bound at all. -/
def assignName (scope : Nat) (name : String) (value : Value) : Eval Bool :=
  act fun s =>
    match s.scopes.assign? scope name value with
    | none => (false, s)
    | some scopes => (true, { s with scopes := scopes })

/-- A new scope inside another, with bindings of its own. -/
def enterScope (outer : Nat) (table : Table Value) : Eval Nat :=
  act fun s => (s.scopes.size, { s with scopes := s.scopes.addInside outer table })

/-- A new scope that stands in no other. -/
def rootScope : Eval Nat :=
  act fun s => (s.scopes.size, { s with scopes := s.scopes.addRoot })

/-- A new object of a class, with the given properties. -/
def newObject (c : Class) (properties : Table Value) : Eval Object :=
  act fun s =>
    (⟨s.properties.size, c⟩, { s with properties := s.properties.push properties })

/-- An object's own property. -/
def ownProperty? (o : Object) (name : String) : Eval (Option Value) :=
  act fun s => (s.properties[o.ident]?.bind (·.get? name), s)

/-- Writes an object's own property. -/
def setOwnProperty (o : Object) (name : String) (value : Value) : Eval Unit :=
  act fun s => ((), { s with properties := s.properties.modify o.ident (·.set name value) })

/-- A list of values. -/
def newArray (elements : List Value) : Eval Value :=
  return .array (← freshIdent) elements

/-- A map whose pairs are written one after another, each under the printed form of its key. -/
def newHash (pairs : List (Value × Value)) : Eval Value :=
  return .hash (← freshIdent) (Table.ofList (pairs.map fun pair => (pair.1.inspect, pair)))

/-- Where a computation gives an ordinary value the next one follows, a signal ends both. -/
theorem runOn_onValue (x : Eval Value) (f : Value → Eval Value) (s : State) :
    (x.onValue f).runOn s =
      match x.runOn s with
      | (some v, t) => if v.isSignal then (some v, t) else (f v).runOn t
      | (none, t) => (none, t) := by
  obtain ⟨r, t, hx⟩ : ∃ r t, x.runOn s = (r, t) := ⟨_, _, rfl⟩
  rw [onValue, runOn_bind, hx]
  cases r with
  | none => rfl
  | some v => cases hv : v.isSignal <;> simp [hv]

end Eval

end Scripting
