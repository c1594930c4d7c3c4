import Scripting.Value

/-!
# The definitions of a method

Along a class and its ancestors a method may be defined several times. `Class.definitions` lists the
definitions, nearest first, each with the class that has it; looking a method up finds the first of
them. Above the class of a definition stand just the definitions that come after it
(`Class.definitions_eq_cons`).
-/

namespace Scripting

namespace Class

/-- The definition of a method that a class has itself, with the class. -/
def definition? (name : String) (c : Class) : Option (Closure × Class) :=
  (c.own.methods.get? name).map fun method => (method, c)

/-- The definitions of a method in a class and its ancestors, nearest first. -/
def definitions (c : Class) (name : String) : List (Closure × Class) :=
  c.lineage.filterMap (definition? name)

/-- The definitions of a method in the ancestors of a class, nearest first. -/
def definitionsAbove (c : Class) (name : String) : List (Closure × Class) :=
  c.lineage.tail.filterMap (definition? name)

variable {c k p : Class} {f : Closure} {name : String} {rest : List (Closure × Class)}

theorem findMethod?_eq_head? (c : Class) (name : String) :
    c.findMethod? true name = (c.definitions name).head? :=
  List.head?_filterMap.symm

theorem definitions_eq (c : Class) (name : String) :
    c.definitions name = (definition? name c).toList ++ c.definitionsAbove name := by
  rw [definitions, definitionsAbove, lineage_eq, List.filterMap_cons, List.tail_cons]
  cases definition? name c <;> rfl

theorem definitionsAbove_subset (c : Class) (name : String) :
    c.definitionsAbove name ⊆ c.definitions name :=
  definitions_eq c name ▸ List.subset_append_right _ _

theorem definitionsAbove_of_superclass (h : c.superclass? = some p) :
    c.definitionsAbove name = p.definitions name := by
  rw [definitionsAbove, lineage_eq, h]
  rfl

theorem definitionsAbove_of_no_superclass (h : c.superclass? = none) :
    c.definitionsAbove name = [] := by
  rw [definitionsAbove, lineage_eq, h]
  rfl

/-- A class that has a method is the first to define it. -/
theorem definitions_of_get? (h : c.own.methods.get? name = some f) :
    c.definitions name = (f, c) :: c.definitionsAbove name := by
  rw [definitions_eq, definition?, h]
  rfl

/-- Without a definition of its own a class has those of its ancestors. -/
theorem definitions_of_none (h : c.own.methods.get? name = none) :
    c.definitions name = c.definitionsAbove name := by
  rw [definitions_eq, definition?, h]
  rfl

/-- The first definition is one of its class, and the others are those above that class. -/
theorem definitions_eq_cons (h : c.definitions name = (f, k) :: rest) :
    k.own.methods.get? name = some f ∧ k.definitionsAbove name = rest := by
  obtain ⟨own, ancestors⟩ := c
  induction ancestors generalizing own with
  | nil =>
      cases hmethod : own.methods.get? name with
      | none =>
          rw [definitions_of_none hmethod] at h
          cases h
      | some method =>
          rw [definitions_of_get? hmethod] at h
          cases h
          exact ⟨hmethod, rfl⟩
  | cons parent ancestors ih =>
      cases hmethod : own.methods.get? name with
      | none =>
          rw [definitions_of_none hmethod] at h
          exact ih parent h
      | some method =>
          rw [definitions_of_get? hmethod] at h
          cases h
          exact ⟨hmethod, rfl⟩

/-- So it is with the first definition above a class. -/
theorem definitionsAbove_eq_cons (h : c.definitionsAbove name = (f, k) :: rest) :
    (∃ p, c.superclass? = some p) ∧ k.definitions name = c.definitionsAbove name ∧
      k.definitionsAbove name = rest := by
  cases hp : c.superclass? with
  | none =>
      rw [definitionsAbove_of_no_superclass hp] at h
      cases h
  | some p =>
      obtain ⟨hmethod, hrest⟩ :=
        definitions_eq_cons ((definitionsAbove_of_superclass hp).symm.trans h)
      exact ⟨⟨p, rfl⟩, by rw [definitions_of_get? hmethod, hrest, h], hrest⟩

end Class

end Scripting
