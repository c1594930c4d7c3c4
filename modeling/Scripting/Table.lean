/-!
# Tables kept in order of first writing

A table lists its rows in the order in which their names were first written. Writing a name
that is already there keeps its place and replaces its content, so the bindings of a scope, the
properties of an object, the methods of a class and the slots of a map all come in the order in
which a script made them.

The view of a table is `get?`: `get?_set` says what writing does to it, and `names_set` what
writing does to the order.
-/

namespace Scripting

/-- Rows of a name and a content, in the order in which the names were first written. -/
abbrev Table (α : Type) := List (String × α)

namespace Table

variable {α : Type}

/-- The content under `name`. -/
def get? (t : Table α) (name : String) : Option α :=
  match t with
  | [] => none
  | (n, a) :: rest => if n = name then some a else get? rest name

@[simp] theorem get?_nil (name : String) : get? ([] : Table α) name = none := rfl

theorem get?_cons (n : String) (a : α) (t : Table α) (name : String) :
    get? ((n, a) :: t) name = if n = name then some a else get? t name := rfl

/-- The names of a table, in order. -/
def names (t : Table α) : List String :=
  t.map Prod.fst

@[simp] theorem names_nil : names ([] : Table α) = [] := rfl

@[simp] theorem names_cons (n : String) (a : α) (t : Table α) :
    names ((n, a) :: t) = n :: names t := rfl

/-- A name can be read exactly when it is one of the names of the table. -/
theorem get?_isSome_iff (t : Table α) (name : String) :
    (get? t name).isSome ↔ name ∈ names t := by
  induction t with
  | nil => simp
  | cons row t ih =>
      obtain ⟨n, b⟩ := row
      by_cases hn : n = name
      · simp [get?_cons, hn]
      · have hne : ¬name = n := fun h => hn h.symm
        simp [get?_cons, hn, hne, ih]

theorem get?_eq_none_iff (t : Table α) (name : String) :
    get? t name = none ↔ name ∉ names t := by
  rw [← get?_isSome_iff, Option.not_isSome_iff_eq_none]

/-- Writes `a` under `name`: in place when the name is there, else at the end. -/
def set (t : Table α) (name : String) (a : α) : Table α :=
  match t with
  | [] => [(name, a)]
  | (n, b) :: rest => if n = name then (name, a) :: rest else (n, b) :: set rest name a

@[simp] theorem set_nil (name : String) (a : α) : set [] name a = [(name, a)] := rfl

theorem set_cons (n : String) (b : α) (t : Table α) (name : String) (a : α) :
    set ((n, b) :: t) name a =
      if n = name then (name, a) :: t else (n, b) :: set t name a := rfl

/-- Reading after a write gives what was written under that name and the rest as before. -/
theorem get?_set (t : Table α) (name : String) (a : α) (other : String) :
    get? (set t name a) other = if name = other then some a else get? t other := by
  induction t with
  | nil => simp [get?_cons]
  | cons row t ih =>
      obtain ⟨n, b⟩ := row
      rw [set_cons]
      by_cases hn : n = name
      · subst hn
        by_cases ho : n = other <;> simp [get?_cons, ho]
      · by_cases ho : n = other
        · subst ho
          simp [get?_cons, hn, Ne.symm hn]
        · simp [get?_cons, hn, ho, ih]

/-- Writing keeps every name in its place and adds a new name at the end. -/
theorem names_set (t : Table α) (name : String) (a : α) :
    names (set t name a) = if name ∈ names t then names t else names t ++ [name] := by
  induction t with
  | nil => simp
  | cons row t ih =>
      obtain ⟨n, b⟩ := row
      rw [set_cons]
      by_cases hn : n = name
      · simp [hn]
      · have hne : ¬name = n := fun h => hn h.symm
        by_cases hm : name ∈ names t <;> simp [hn, hne, hm, ih]

/-- Writes the rows of a list one after another. -/
def ofList (rows : List (String × α)) : Table α :=
  rows.foldl (fun t row => t.set row.1 row.2) []

@[simp] theorem ofList_nil : ofList ([] : List (String × α)) = [] := rfl

theorem ofList_append_singleton (rows : List (String × α)) (name : String) (a : α) :
    ofList (rows ++ [(name, a)]) = (ofList rows).set name a := by
  simp [ofList]

/-- A list of rows and the table made of it have the same names. -/
theorem mem_names_ofList (rows : List (String × α)) (name : String) :
    name ∈ (ofList rows).names ↔ name ∈ rows.map Prod.fst := by
  have go (t : Table α) :
      name ∈ (rows.foldl (fun t row => t.set row.1 row.2) t).names ↔
        name ∈ t.names ∨ name ∈ rows.map Prod.fst := by
    induction rows generalizing t with
    | nil => simp
    | cons row rows ih =>
        have hset : name ∈ (t.set row.1 row.2).names ↔ name ∈ t.names ∨ name = row.1 := by
          rw [names_set]
          split
          · next hmem => exact ⟨.inl, fun h => h.elim id fun heq => heq ▸ hmem⟩
          · rw [List.mem_append, List.mem_singleton]
        rw [List.foldl_cons, ih, hset, List.map_cons, List.mem_cons, or_assoc]
  exact (go []).trans (or_iff_right List.not_mem_nil)

/-- The rows of a table in the order of their names. -/
def sorted (t : Table α) : Table α :=
  t.mergeSort fun a b => a.1 ≤ b.1

end Table

end Scripting
