import Scripting.Table

/-!
# Nested scopes

A tree of scopes, each with its own bindings. A scope is known by its number; it was made inside
a scope with a smaller number, or inside none, so the chain of scopes around a scope is finite.
Names are looked up along that chain, from the scope itself outwards.

Everything about names rests on `chain`: the owner of a name is the first scope of the chain
that binds it, and reading and assigning go through the owner.
-/

namespace Scripting

/-- A scope: the number of the scope around it and its own bindings. -/
structure Scope (α : Type) where
  outer : Option Nat
  bindings : Table α

/-- A tree of numbered scopes. -/
structure Scopes (α : Type) where
  scopes : Array (Scope α)
  /-- A scope is made inside an older one. -/
  outer_lt : ∀ (i : Nat) (h : i < scopes.size) (o : Nat), scopes[i].outer = some o → o < i

namespace Scopes

variable {α : Type}

/-- No scopes at all. -/
def empty : Scopes α :=
  ⟨#[], fun _ h => absurd h (Nat.not_lt_zero _)⟩

instance : Inhabited (Scopes α) := ⟨empty⟩

/-- The number that the next scope will have. -/
def size (S : Scopes α) : Nat :=
  S.scopes.size

/-- The own bindings of a scope. -/
def bindings (S : Scopes α) (s : Nat) : Table α :=
  match S.scopes[s]? with
  | some scope => scope.bindings
  | none => []

/-- The scope around a scope. -/
def outer? (S : Scopes α) (s : Nat) : Option Nat :=
  S.scopes[s]?.bind Scope.outer

/-- Whether a scope itself binds a name. -/
def binds (S : Scopes α) (s : Nat) (name : String) : Bool :=
  ((S.bindings s).get? name).isSome

/-- A new scope that stands in no other. -/
def addRoot (S : Scopes α) : Scopes α where
  scopes := S.scopes.push ⟨none, []⟩
  outer_lt i h o ho := by
    rw [Array.getElem_push] at ho
    split at ho
    · exact S.outer_lt i _ o ho
    · cases ho

@[simp] theorem size_addRoot (S : Scopes α) : S.addRoot.size = S.size + 1 := by
  simp [size, addRoot]

/-- A new root scope binds nothing, and the other scopes bind what they did. -/
theorem bindings_addRoot (S : Scopes α) (t : Nat) : S.addRoot.bindings t = S.bindings t := by
  unfold bindings addRoot
  rw [Array.getElem?_push]
  by_cases ht : t = S.scopes.size
  · simp [ht]
  · simp [ht]

/-- A new scope inside scope `s`, with bindings of its own. -/
def addInside (S : Scopes α) (s : Nat) (table : Table α) : Scopes α where
  scopes := S.scopes.push ⟨if s < S.scopes.size then some s else none, table⟩
  outer_lt i h o ho := by
    rw [Array.getElem_push] at ho
    split at ho
    · exact S.outer_lt i _ o ho
    · next hi =>
        rw [Array.size_push] at h
        split at ho
        · cases ho; omega
        · cases ho

@[simp] theorem size_addInside (S : Scopes α) (s : Nat) (table : Table α) :
    (S.addInside s table).size = S.size + 1 := by
  simp [size, addInside]

/-- A new scope has the bindings it was made with, and the other scopes keep theirs. -/
theorem bindings_addInside (S : Scopes α) (s : Nat) (table : Table α) (t : Nat) :
    (S.addInside s table).bindings t = if t = S.size then table else S.bindings t := by
  unfold bindings addInside size
  rw [Array.getElem?_push]
  by_cases ht : t = S.scopes.size
  · simp [ht]
  · simp [ht]

/-- A new scope stands in the scope it was made in, and the other scopes stay where they are. -/
theorem outer?_addInside (S : Scopes α) (s : Nat) (table : Table α) (t : Nat) (hs : s < S.size) :
    (S.addInside s table).outer? t = if t = S.size then some s else S.outer? t := by
  unfold size at hs
  unfold outer? addInside size
  rw [Array.getElem?_push]
  by_cases ht : t = S.scopes.size
  · simp [ht, hs]
  · simp [ht]

/-- Binds a name in scope `s` itself. -/
def set (S : Scopes α) (s : Nat) (name : String) (a : α) : Scopes α where
  scopes := S.scopes.modify s fun scope => { scope with bindings := scope.bindings.set name a }
  outer_lt i h o ho := by
    rw [Array.size_modify] at h
    refine S.outer_lt i h o ?_
    rw [Array.getElem_modify] at ho
    split at ho <;> exact ho

@[simp] theorem size_set (S : Scopes α) (s : Nat) (name : String) (a : α) :
    (S.set s name a).size = S.size := by
  simp [size, set]

/-- Binding a name in one scope leaves the own bindings of the others. -/
theorem bindings_set (S : Scopes α) (s : Nat) (name : String) (a : α) (t : Nat) :
    (S.set s name a).bindings t =
      if t = s ∧ s < S.size then (S.bindings s).set name a else S.bindings t := by
  unfold bindings set size
  by_cases hs : t = s
  · subst hs
    by_cases ht : t < S.scopes.size <;> simp [ht, Array.getElem_modify]
  · have hne : ¬s = t := fun h => hs h.symm
    simp [hs, hne, Array.getElem?_modify]

/-- Binding a name moves no scope. -/
@[simp] theorem outer?_set (S : Scopes α) (s : Nat) (name : String) (a : α) (t : Nat) :
    (S.set s name a).outer? t = S.outer? t := by
  unfold outer? set
  simp only [Array.getElem?_modify]
  split
  · cases S.scopes[t]? <;> rfl
  · rfl

/-- A scope and the scopes around it, innermost first. -/
def chain (S : Scopes α) (s : Nat) : List Nat :=
  if h : s < S.scopes.size then
    match ho : S.scopes[s].outer with
    | none => [s]
    | some o => s :: S.chain o
  else []
termination_by s
decreasing_by exact S.outer_lt s h o ho

/-- The chain of a scope is the scope followed by the chain of the scope around it. -/
theorem chain_eq (S : Scopes α) (s : Nat) :
    S.chain s =
      if s < S.size then
        match S.outer? s with
        | none => [s]
        | some o => s :: S.chain o
      else [] := by
  rw [chain]
  unfold size outer?
  by_cases h : s < S.scopes.size
  · simp only [h, dite_true, if_true, Array.getElem?_eq_getElem, Option.bind_some]
    split <;> simp_all
  · simp [h]

/-- The innermost scope, from `s` outwards, that binds a name. -/
def owner? (S : Scopes α) (s : Nat) (name : String) : Option Nat :=
  (S.chain s).find? (S.binds · name)

/-- What a name stands for in scope `s`. -/
def get? (S : Scopes α) (s : Nat) (name : String) : Option α :=
  (S.chain s).findSome? fun i => (S.bindings i).get? name

/-- Whether a name stands for anything in scope `s`. -/
def contains (S : Scopes α) (s : Nat) (name : String) : Bool :=
  (S.owner? s name).isSome

/-- Rebinds a name in the scope that owns it, if there is one. -/
def assign? (S : Scopes α) (s : Nat) (name : String) (a : α) : Option (Scopes α) :=
  (S.owner? s name).map (S.set · name a)

end Scopes

end Scripting
