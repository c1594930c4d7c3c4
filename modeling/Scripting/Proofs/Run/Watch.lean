import Scripting.Proofs.Run.Stored
import Scripting.Proofs.Run.Calls

/-!
# What runs leave alone

A scope that is there keeps what it binds under names that scripts may not bind
(`State.Retains`). What becomes of the properties of objects depends on which of them are assigned
to: a `Watch` says of which properties that may be so, and what then holds of an object from the
moment when it is made.
-/

namespace Scripting

namespace Table

variable {α : Type}

theorem mem_of_get? {t : Table α} {name : String} {a : α} (h : t.get? name = some a) :
    (name, a) ∈ t := by
  induction t with
  | nil => cases h
  | cons row t ih =>
      obtain ⟨n, b⟩ := row
      rw [get?_cons] at h
      split at h
      · next hn =>
          cases h
          exact hn ▸ List.mem_cons_self
      · exact List.mem_cons_of_mem _ (ih h)

theorem mem_set {t : Table α} {name : String} {a : α} {row : String × α}
    (h : row ∈ t.set name a) : row = (name, a) ∨ row ∈ t := by
  induction t with
  | nil => exact .inl (List.mem_singleton.mp h)
  | cons first t ih =>
      obtain ⟨n, b⟩ := first
      rw [set_cons] at h
      split at h
      · exact (List.mem_cons.mp h).imp_right (List.mem_cons_of_mem _)
      · rcases List.mem_cons.mp h with rfl | h
        · exact .inr List.mem_cons_self
        · exact (ih h).imp_right (List.mem_cons_of_mem _)

/-- A table has only rows that it was made of. -/
theorem mem_of_mem_ofList {rows : List (String × α)} {row : String × α}
    (h : row ∈ ofList rows) : row ∈ rows := by
  have go : ∀ (rows : List (String × α)) (t : Table α),
      row ∈ rows.foldl (fun t row => t.set row.1 row.2) t → row ∈ rows ∨ row ∈ t := by
    intro rows
    induction rows with
    | nil => exact fun _ h => .inr h
    | cons first rows ih =>
        intro t h
        rcases ih _ h with h | h
        · exact .inl (List.mem_cons_of_mem _ h)
        · rcases mem_set h with rfl | h
          · exact .inl List.mem_cons_self
          · exact .inr h
  exact (go rows [] h).resolve_right List.not_mem_nil

end Table

namespace State

/-- The scopes of `s` are still there in `t` and bind the same under names that `name` does not
allow. -/
structure Retains (name : String → Prop) (s t : State) : Prop where
  size : s.scopes.size ≤ t.scopes.size
  rows : ∀ k < s.scopes.size, ∀ n, ¬name n →
    (t.scopes.bindings k).get? n = (s.scopes.bindings k).get? n

variable {name : String → Prop} {s t u : State}

theorem Retains.of_scopes (h : t.scopes = s.scopes) : s.Retains name t :=
  ⟨Nat.le_of_eq (congrArg Scopes.size h).symm, fun _ _ _ _ => h ▸ rfl⟩

theorem Retains.refl (name : String → Prop) (s : State) : s.Retains name s :=
  .of_scopes rfl

theorem Retains.trans (h : s.Retains name t) (h' : t.Retains name u) : s.Retains name u where
  size := Nat.le_trans h.size h'.size
  rows k hk n hn := (h'.rows k (Nat.lt_of_lt_of_le hk h.size) n hn).trans (h.rows k hk n hn)

theorem Retains.bind {n : String} (hn : name n) (scope : Nat) (v : Value) :
    s.Retains name { s with scopes := s.scopes.set scope n v } where
  size := Nat.le_of_eq (Scopes.size_set ..).symm
  rows k _ n' hn' := by
    rw [Scopes.bindings_set]
    split
    · next h =>
        have hne : n ≠ n' := by
          rintro rfl
          exact hn' hn
        rw [Table.get?_set, if_neg hne, h.1]
    · rfl

theorem Retains.withScope (s : State) (outer : Nat) (table : Table Value) :
    s.Retains name (s.withScope outer table) where
  size := by
    rw [State.withScope, Scopes.size_addInside]
    exact Nat.le_succ _
  rows k hk n _ := by
    rw [State.withScope, Scopes.bindings_addInside, if_neg (Nat.ne_of_lt hk)]

end State

/-- What is watched of objects: what holds of each of them in a state, and which properties may be
assigned to without touching it. It holds of an object that is made, and it goes on to hold as long
as the state `stays` as it is in that regard. -/
structure Watch where
  object : State → Object → Prop
  stays : State → State → Prop
  free : Object → String → Prop
  refl : ∀ s, stays s s
  trans : ∀ {s t u}, stays s t → stays t u → stays s u
  keeps : ∀ {s t o}, stays s t → object s o → object t o
  same : ∀ {s t : State}, t.properties = s.properties → stays s t
  grown : ∀ s c, stays s (s.withObject c)
  made : ∀ (s : State) c, object (s.withObject c) ⟨s.properties.size, c⟩
  assigned : ∀ {o name}, free o name → ∀ s v,
    stays s { s with properties := s.properties.modify o.ident (·.set name v) }

/-- Nothing is watched. -/
def Watch.nothing : Watch where
  object _ _ := True
  stays _ _ := True
  free _ _ := True
  refl _ := trivial
  trans _ _ := trivial
  keeps _ _ := trivial
  same _ := trivial
  grown _ _ := trivial
  made _ _ := trivial
  assigned _ _ _ := trivial

end Scripting
