import Scripting.Proofs.Run.Stored
import Scripting.Proofs.Scopes.Lookup
import Scripting.Proofs.Value.Rename

/-!
# Scopes with other contents

`S.map f` has the scopes of `S`, each where it stands and with the names that it binds, and what a
name is bound to is mapped. Looking a name up and writing commute with that.
-/

namespace Scripting

theorem Table.mapContents_congr {α β : Type} {f g : α → β} {t : Table α}
    (h : t.All fun a => f a = g a) : t.mapContents f = t.mapContents g :=
  List.map_congr_left fun row hrow => by rw [h row hrow]

namespace Scopes

variable {α β : Type}

/-- The scopes with the content of each binding mapped. -/
def map (f : α → β) (S : Scopes α) : Scopes β where
  scopes := S.scopes.map fun scope => ⟨scope.outer, scope.bindings.mapContents f⟩
  outer_lt i h o ho := by
    rw [Array.size_map] at h
    rw [Array.getElem_map] at ho
    exact S.outer_lt i h o ho

variable (f : α → β) (S : Scopes α)

@[simp] theorem size_map : (S.map f).size = S.size :=
  Array.size_map

theorem bindings_map (i : Nat) : (S.map f).bindings i = (S.bindings i).mapContents f := by
  unfold bindings map
  rw [Array.getElem?_map]
  cases S.scopes[i]? <;> rfl

@[simp] theorem outer?_map (i : Nat) : (S.map f).outer? i = S.outer? i := by
  unfold outer? map
  rw [Array.getElem?_map]
  cases S.scopes[i]? <;> rfl

theorem get?_bindings_map (i : Nat) (name : String) :
    ((S.map f).bindings i).get? name = ((S.bindings i).get? name).map f := by
  rw [bindings_map, Table.get?_mapContents]

theorem owner?_map (i : Nat) (name : String) : (S.map f).owner? i name = S.owner? i name := by
  induction i using S.outer_induction with
  | step i ih =>
      have hbinds : (S.map f).binds i name = S.binds i name := by
        rw [binds, binds, get?_bindings_map, Option.isSome_map]
      rw [owner?_eq, owner?_eq S, hbinds, outer?_map]
      cases ho : S.outer? i with
      | none => rfl
      | some o => rw [Option.bind_some, Option.bind_some, ih o ho]

theorem get?_map (i : Nat) (name : String) : (S.map f).get? i name = (S.get? i name).map f := by
  rw [get?_eq_owner?, get?_eq_owner?, owner?_map]
  cases S.owner? i name with
  | none => rfl
  | some o => exact get?_bindings_map f S o name

theorem set_map (i : Nat) (name : String) (a : α) :
    (S.map f).set i name (f a) = (S.set i name a).map f := by
  refine ext_bindings (by simp) (fun j => ?_) fun j => by simp
  rw [bindings_set, bindings_map, bindings_map, bindings_map, bindings_set, size_map]
  split
  · exact Table.set_mapContents f _ name a
  · rfl

theorem assign?_map (i : Nat) (name : String) (a : α) :
    (S.map f).assign? i name (f a) = (S.assign? i name a).map (map f) := by
  unfold assign?
  rw [owner?_map]
  cases S.owner? i name with
  | none => rfl
  | some o => exact congrArg some (set_map f S o name a)

theorem addInside_map (i : Nat) (table : Table α) :
    (S.map f).addInside i (table.mapContents f) = (S.addInside i table).map f := by
  refine ext_bindings (by simp) (fun j => ?_) fun j => ?_
  · rw [bindings_addInside, bindings_map, bindings_map, bindings_addInside, size_map]
    split <;> rfl
  · simp only [outer?_map, outer?_addInside_eq, size_map]

variable {f S}

theorem map_congr {g : α → β} (h : S.All fun a => f a = g a) : S.map f = S.map g := by
  refine ext_bindings (by simp) (fun i => ?_) fun i => by simp
  rw [bindings_map, bindings_map]
  exact Table.mapContents_congr (h i)

theorem map_id {f : α → α} (hf : ∀ a, f a = a) : S.map f = S := by
  refine ext_bindings (by simp) (fun i => ?_) fun i => by simp
  rw [bindings_map, Table.mapContents_id hf]

end Scopes

end Scripting
