import Scripting.Run.State

/-!
# What a state stores

A state stores values in two places: the bindings of its scopes and the properties of its objects.
`s.Stores Q` says that all of them satisfy `Q`. Every way of writing to a state keeps that, as long
as what is written satisfies `Q`, and everything that is read satisfies it.
-/

namespace Scripting

namespace Table

variable {α : Type} {Q : α → Prop}

/-- `Q` holds of the contents of all rows of a table. -/
def All (Q : α → Prop) (t : Table α) : Prop :=
  ∀ row ∈ t, Q row.2

theorem All.nil : All Q [] := fun _ h => absurd h List.not_mem_nil

theorem All.cons {t : Table α} {name : String} {a : α} (ha : Q a) (ht : All Q t) :
    All Q ((name, a) :: t) := by
  intro row hrow
  rcases List.mem_cons.mp hrow with rfl | hrow
  · exact ha
  · exact ht row hrow

theorem All.mono {Q' : α → Prop} {t : Table α} (ht : All Q t) (h : ∀ a, Q a → Q' a) : All Q' t :=
  fun row hrow => h row.2 (ht row hrow)

theorem All.get? {t : Table α} (ht : All Q t) {name : String} {a : α} (h : t.get? name = some a) :
    Q a := by
  induction t with
  | nil => simp at h
  | cons row t ih =>
      obtain ⟨n, b⟩ := row
      rw [get?_cons] at h
      split at h
      · cases h
        exact ht (n, a) List.mem_cons_self
      · exact ih (fun row hrow => ht row (List.mem_cons_of_mem _ hrow)) h

theorem All.set {t : Table α} (ht : All Q t) (name : String) {a : α} (ha : Q a) :
    All Q (t.set name a) := by
  induction t with
  | nil => exact All.nil.cons ha
  | cons row t ih =>
      obtain ⟨n, b⟩ := row
      have htail : All Q t := fun row hrow => ht row (List.mem_cons_of_mem _ hrow)
      rw [set_cons]
      split
      · exact htail.cons ha
      · exact (ih htail).cons (ht (n, b) List.mem_cons_self)

theorem All.ofList {rows : List (String × α)} (h : All Q rows) : All Q (Table.ofList rows) := by
  have go : ∀ (rows : List (String × α)) (t : Table α), All Q rows → All Q t →
      All Q (rows.foldl (fun t row => t.set row.1 row.2) t) := by
    intro rows
    induction rows with
    | nil => exact fun t _ ht => ht
    | cons row rows ih =>
        intro t hrows ht
        have hhead : Q row.2 := hrows row List.mem_cons_self
        exact ih _ (fun r hr => hrows r (List.mem_cons_of_mem _ hr)) (ht.set row.1 hhead)
  exact go rows [] h All.nil

end Table

namespace Scopes

variable {α : Type} {Q : α → Prop}

/-- `Q` holds of all that is bound in any scope. -/
def All (Q : α → Prop) (S : Scopes α) : Prop :=
  ∀ s, (S.bindings s).All Q

theorem All.empty : All Q (Scopes.empty : Scopes α) := by
  intro s
  have h : (Scopes.empty : Scopes α).bindings s = [] := by simp [bindings, Scopes.empty]
  rw [h]
  exact Table.All.nil

theorem All.get? {S : Scopes α} (h : S.All Q) {s : Nat} {name : String} {a : α}
    (ha : S.get? s name = some a) : Q a := by
  obtain ⟨i, -, hi⟩ := List.exists_of_findSome?_eq_some ha
  exact (h i).get? hi

theorem All.addRoot {S : Scopes α} (h : S.All Q) : S.addRoot.All Q := by
  intro s
  rw [bindings_addRoot]
  exact h s

theorem All.addInside {S : Scopes α} (h : S.All Q) (s : Nat) {table : Table α}
    (ht : table.All Q) : (S.addInside s table).All Q := by
  intro t
  rw [bindings_addInside]
  split
  · exact ht
  · exact h t

theorem All.set {S : Scopes α} (h : S.All Q) (s : Nat) (name : String) {a : α} (ha : Q a) :
    (S.set s name a).All Q := by
  intro t
  rw [bindings_set]
  split
  · exact (h s).set name ha
  · exact h t

theorem All.assign? {S T : Scopes α} (h : S.All Q) {s : Nat} {name : String} {a : α} (ha : Q a)
    (hT : S.assign? s name a = some T) : T.All Q := by
  obtain ⟨i, -, rfl⟩ := Option.map_eq_some_iff.mp hT
  exact h.set i name ha

end Scopes

namespace State

variable {Q : Value → Prop}

/-- All values that a state stores satisfy `Q`. -/
structure Stores (Q : Value → Prop) (s : State) : Prop where
  bindings : s.scopes.All Q
  properties : ∀ (i : Nat) (h : i < s.properties.size), Table.All Q s.properties[i]

theorem Stores.initial : State.initial.Stores Q :=
  ⟨Scopes.All.empty, fun i h => absurd h (Nat.not_lt_zero i)⟩

theorem Stores.mono {Q' : Value → Prop} {s : State} (h : s.Stores Q) (hQ : ∀ v, Q v → Q' v) :
    s.Stores Q' :=
  ⟨fun i => (h.bindings i).mono hQ, fun i hi => (h.properties i hi).mono hQ⟩

theorem Stores.withScopes {s : State} (h : s.Stores Q) {S : Scopes Value} (hS : S.All Q) :
    Stores Q { s with scopes := S } :=
  ⟨hS, h.properties⟩

/-- What is read from an object is one of the stored values. -/
theorem Stores.property {s : State} (h : s.Stores Q) {i : Nat} {name : String} {v : Value}
    (hv : s.properties[i]?.bind (·.get? name) = some v) : Q v := by
  obtain ⟨table, htable, hv⟩ := Option.bind_eq_some_iff.mp hv
  obtain ⟨hi, rfl⟩ := Array.getElem?_eq_some_iff.mp htable
  exact (h.properties i hi).get? hv

theorem Stores.pushProperties {s : State} (h : s.Stores Q) {table : Table Value}
    (ht : table.All Q) : Stores Q { s with properties := s.properties.push table } := by
  refine ⟨h.bindings, fun i hi => ?_⟩
  rw [Array.getElem_push]
  split
  · exact h.properties i _
  · exact ht

theorem Stores.setProperty {s : State} (h : s.Stores Q) (i : Nat) (name : String) {v : Value}
    (hv : Q v) :
    Stores Q { s with properties := s.properties.modify i (·.set name v) } := by
  refine ⟨h.bindings, fun j hj => ?_⟩
  rw [Array.getElem_modify]
  rw [Array.size_modify] at hj
  split
  · exact (h.properties j hj).set name hv
  · exact h.properties j hj

end State

end Scripting
