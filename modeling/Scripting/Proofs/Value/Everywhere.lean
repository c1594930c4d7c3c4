import Scripting.Value

/-!
# Properties of a value and of all that is in it

`v.Everywhere P` says that `P` holds of `v`, of the elements of the lists in it, of the keys and
contents of the maps in it and of the value that a `return` carries. Methods and objects are not
inside a value: what they hold is in the state. `u.Inside v` singles out one of the values of which
this speaks.
-/

namespace Scripting

namespace Value

variable {P : Value → Prop}

mutual

/-- `P` holds of a value and of all values in it. -/
def Everywhere (P : Value → Prop) : Value → Prop
  | array i elements => P (array i elements) ∧ EverywhereIn P elements
  | hash i rows => P (hash i rows) ∧ EverywhereInRows P rows
  | returned value => P (returned value) ∧ value.Everywhere P
  | v => P v

/-- `P` holds of the values of a list and of all values in them. -/
def EverywhereIn (P : Value → Prop) : List Value → Prop
  | [] => True
  | v :: rest => v.Everywhere P ∧ EverywhereIn P rest

/-- `P` holds of the keys and contents of the rows of a map and of all values in them. -/
def EverywhereInRows (P : Value → Prop) : List (String × Value × Value) → Prop
  | [] => True
  | (_, key, value) :: rest => key.Everywhere P ∧ value.Everywhere P ∧ EverywhereInRows P rest

end

theorem everywhereIn_iff (vs : List Value) :
    EverywhereIn P vs ↔ ∀ v ∈ vs, v.Everywhere P := by
  induction vs with
  | nil => simp [EverywhereIn]
  | cons v vs ih => simp [EverywhereIn, ih]

theorem everywhereInRows_iff (rows : List (String × Value × Value)) :
    EverywhereInRows P rows ↔
      ∀ row ∈ rows, row.2.1.Everywhere P ∧ row.2.2.Everywhere P := by
  induction rows with
  | nil => simp [EverywhereInRows]
  | cons row rows ih =>
      obtain ⟨slot, key, value⟩ := row
      simp [EverywhereInRows, ih, and_assoc]

theorem everywhere_array (i : Nat) (elements : List Value) :
    (array i elements).Everywhere P ↔
      P (array i elements) ∧ ∀ v ∈ elements, v.Everywhere P := by
  rw [Everywhere, everywhereIn_iff]

theorem everywhere_hash (i : Nat) (rows : List (String × Value × Value)) :
    (hash i rows).Everywhere P ↔
      P (hash i rows) ∧ ∀ row ∈ rows, row.2.1.Everywhere P ∧ row.2.2.Everywhere P := by
  rw [Everywhere, everywhereInRows_iff]

theorem Everywhere.head {v : Value} (h : v.Everywhere P) : P v := by
  cases v with
  | array i elements => exact ((everywhere_array i elements).mp h).1
  | hash i rows => exact ((everywhere_hash i rows).mp h).1
  | returned value =>
      rw [Everywhere] at h
      exact h.1
  | _ => simpa only [Everywhere] using h

mutual

theorem Everywhere.mono {Q : Value → Prop} (h : ∀ v, P v → Q v) {v : Value}
    (hv : v.Everywhere P) : v.Everywhere Q := by
  match v, hv with
  | array i elements, hv =>
      rw [Everywhere] at hv ⊢
      exact ⟨h _ hv.1, everywhereIn_mono h hv.2⟩
  | hash i rows, hv =>
      rw [Everywhere] at hv ⊢
      exact ⟨h _ hv.1, everywhereInRows_mono h hv.2⟩
  | returned value, hv =>
      rw [Everywhere] at hv ⊢
      exact ⟨h _ hv.1, hv.2.mono h⟩
  | function f, hv | cls c, hv | object o, hv | boundMethod i f o owner, hv => exact h _ hv.head
  | integer n, hv | string s, hv | boolean b, hv | null, hv | builtin b, hv | failed e, hv =>
      exact h _ hv.head

theorem everywhereIn_mono {Q : Value → Prop} (h : ∀ v, P v → Q v) {vs : List Value}
    (hvs : EverywhereIn P vs) : EverywhereIn Q vs := by
  match vs, hvs with
  | [], _ => trivial
  | v :: rest, hvs => exact ⟨hvs.1.mono h, everywhereIn_mono h hvs.2⟩

theorem everywhereInRows_mono {Q : Value → Prop} (h : ∀ v, P v → Q v)
    {rows : List (String × Value × Value)} (hrows : EverywhereInRows P rows) :
    EverywhereInRows Q rows := by
  match rows, hrows with
  | [], _ => trivial
  | (_, key, value) :: rest, hrows =>
      exact ⟨hrows.1.mono h, hrows.2.1.mono h, everywhereInRows_mono h hrows.2.2⟩

end

/-- A value or one that is in it. -/
inductive Inside : Value → Value → Prop where
  | self (v : Value) : Inside v v
  | element {u v : Value} {i : Nat} {elements : List Value} (hv : v ∈ elements)
      (h : Inside u v) : Inside u (array i elements)
  | key {u : Value} {i : Nat} {rows : List (String × Value × Value)}
      {row : String × Value × Value} (hrow : row ∈ rows) (h : Inside u row.2.1) :
      Inside u (hash i rows)
  | content {u : Value} {i : Nat} {rows : List (String × Value × Value)}
      {row : String × Value × Value} (hrow : row ∈ rows) (h : Inside u row.2.2) :
      Inside u (hash i rows)
  | carried {u v : Value} (h : Inside u v) : Inside u (returned v)

theorem Inside.trans {u v w : Value} (h : u.Inside v) (h' : v.Inside w) : u.Inside w := by
  induction h' with
  | self => exact h
  | element hv _ ih => exact .element hv ih
  | key hrow _ ih => exact .key hrow ih
  | content hrow _ ih => exact .content hrow ih
  | carried _ ih => exact .carried ih

/-- What holds everywhere in a value holds everywhere in the values in it. -/
theorem Everywhere.inside {u v : Value} (h : v.Everywhere P) (hu : u.Inside v) :
    u.Everywhere P := by
  induction hu with
  | self => exact h
  | element hv _ ih => exact ih (((everywhere_array _ _).mp h).2 _ hv)
  | key hrow _ ih => exact ih (((everywhere_hash _ _).mp h).2 _ hrow).1
  | content hrow _ ih => exact ih (((everywhere_hash _ _).mp h).2 _ hrow).2
  | carried _ ih =>
      rw [Everywhere] at h
      exact ih h.2

mutual

/-- What holds of a value and of all values in it holds everywhere in it. -/
theorem everywhere_of_inside {v : Value} (h : ∀ u, u.Inside v → P u) : v.Everywhere P := by
  match v, h with
  | array i elements, h =>
      rw [Everywhere]
      exact ⟨h _ (.self _), everywhereIn_of_inside fun v hv u hu => h u (.element hv hu)⟩
  | hash i rows, h =>
      rw [Everywhere]
      exact ⟨h _ (.self _), everywhereInRows_of_inside (fun row hrow u hu => h u (.key hrow hu))
        fun row hrow u hu => h u (.content hrow hu)⟩
  | returned value, h =>
      rw [Everywhere]
      exact ⟨h _ (.self _), everywhere_of_inside fun u hu => h u (.carried hu)⟩
  | function f, h | cls c, h | object o, h | boundMethod i f o owner, h =>
      simpa only [Everywhere] using h _ (.self _)
  | integer n, h | string s, h | boolean b, h | null, h | builtin b, h | failed e, h =>
      simpa only [Everywhere] using h _ (.self _)

theorem everywhereIn_of_inside {vs : List Value} (h : ∀ v ∈ vs, ∀ u, u.Inside v → P u) :
    EverywhereIn P vs := by
  match vs, h with
  | [], _ => trivial
  | v :: rest, h =>
      exact ⟨everywhere_of_inside (h v List.mem_cons_self),
        everywhereIn_of_inside fun w hw => h w (List.mem_cons_of_mem _ hw)⟩

theorem everywhereInRows_of_inside {rows : List (String × Value × Value)}
    (hkeys : ∀ row ∈ rows, ∀ u, u.Inside row.2.1 → P u)
    (hcontents : ∀ row ∈ rows, ∀ u, u.Inside row.2.2 → P u) : EverywhereInRows P rows := by
  match rows, hkeys, hcontents with
  | [], _, _ => trivial
  | (slot, key, content) :: rest, hkeys, hcontents =>
      exact ⟨everywhere_of_inside (hkeys _ List.mem_cons_self),
        everywhere_of_inside (hcontents _ List.mem_cons_self),
        everywhereInRows_of_inside (fun row hrow => hkeys row (List.mem_cons_of_mem _ hrow))
          fun row hrow => hcontents row (List.mem_cons_of_mem _ hrow)⟩

end

/-- What holds of every value holds everywhere in each of them. -/
theorem everywhere_of (h : ∀ v, P v) (v : Value) : v.Everywhere P :=
  everywhere_of_inside fun u _ => h u

end Value

end Scripting
