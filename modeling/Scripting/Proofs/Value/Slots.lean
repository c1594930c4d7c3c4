import Mathlib.Data.List.Basic
import Mathlib.Data.List.Induction
import Scripting.Value.Operator

/-!
# The rows of a map

A map made of pairs has a row for each printed form among the keys, in the order in which these come
up first, and in it the last pair whose key prints so. `Value.slots` writes this down without the
table that is filled pair by pair (`Value.ofList_pairs`), and what such a map answers to a key is
the content of the last pair whose key prints like it.
-/

namespace Scripting

namespace Table

variable {α : Type}

/-- The names of a table made of rows come in the order of their first occurrence. -/
theorem names_ofList (rows : List (String × α)) :
    (ofList rows).names = (rows.map Prod.fst).eraseDups := by
  induction rows using List.reverseRecOn with
  | nil => rfl
  | append_singleton rows row ih =>
      obtain ⟨name, a⟩ := row
      have hmem : name ∈ (ofList rows).names ↔ name ∈ rows.map Prod.fst :=
        mem_names_ofList rows name
      rw [ofList_append_singleton, names_set, List.map_append, List.eraseDups_append, ← ih]
      by_cases h : name ∈ rows.map Prod.fst
      · simp [hmem.mpr h, List.removeAll, h]
      · simp [mt hmem.mp h, List.removeAll, h, List.eraseDups_cons]

/-- Of the rows under a name the last one counts. -/
theorem get?_ofList (rows : List (String × α)) (name : String) :
    (ofList rows).get? name =
      (rows.filter fun row => row.1 = name).getLast?.map Prod.snd := by
  induction rows using List.reverseRecOn with
  | nil => rfl
  | append_singleton rows row ih =>
      obtain ⟨n, a⟩ := row
      rw [ofList_append_singleton, get?_set, List.filter_append, ih]
      by_cases h : n = name <;> simp [h]

theorem nodup_set {t : Table α} (h : t.names.Nodup) (name : String) (a : α) :
    (t.set name a).names.Nodup := by
  rw [names_set]
  split
  · exact h
  · next hnew =>
      refine List.nodup_append.mpr ⟨h, List.nodup_cons.mpr ⟨List.not_mem_nil, .nil⟩, ?_⟩
      intro n hn m hm heq
      rw [List.mem_singleton] at hm
      exact hnew (hm ▸ heq ▸ hn)

theorem nodup_ofList (rows : List (String × α)) : (ofList rows).names.Nodup := by
  induction rows using List.reverseRecOn with
  | nil => exact List.nodup_nil
  | append_singleton rows row ih =>
      rw [ofList_append_singleton]
      exact nodup_set ih row.1 row.2

/-- A table without a name twice is given by its names and what stands under them. -/
theorem eq_filterMap_names {t : Table α} (h : t.names.Nodup) :
    t = t.names.filterMap fun name => (t.get? name).map (name, ·) := by
  induction t with
  | nil => rfl
  | cons row t ih =>
      obtain ⟨n, a⟩ := row
      obtain ⟨hnew, htail⟩ := List.nodup_cons.mp h
      have hfirst : (get? ((n, a) :: t) n).map (n, ·) = some (n, a) := by
        rw [get?_cons, if_pos rfl, Option.map_some]
      have hrest : (names t).filterMap (fun name => (get? ((n, a) :: t) name).map (name, ·)) =
          (names t).filterMap fun name => (get? t name).map (name, ·) := by
        refine List.filterMap_congr fun name hname => ?_
        have hne : n ≠ name := fun heq => hnew (heq ▸ hname)
        rw [get?_cons, if_neg hne]
      rw [names_cons, List.filterMap_cons, hfirst, hrest, ← ih htail]

end Table

namespace Value

/-- The last of some pairs whose key prints in a given way. -/
def lastPrinting (printed : String) (pairs : List (Value × Value)) : Option (Value × Value) :=
  (pairs.filter fun pair => pair.1.inspect = printed).getLast?

/-- The rows of a map made of pairs: for each printed form of a key, in the order of their first
occurrence, the last pair whose key prints so. -/
def slots (pairs : List (Value × Value)) : List (String × Value × Value) :=
  (pairs.map fun pair => pair.1.inspect).eraseDups.filterMap fun printed =>
    (lastPrinting printed pairs).map (printed, ·)

theorem get?_ofList_pairs (pairs : List (Value × Value)) (printed : String) :
    (Table.ofList (pairs.map fun pair => (pair.1.inspect, pair))).get? printed =
      lastPrinting printed pairs := by
  rw [Table.get?_ofList, List.filter_map, List.getLast?_map, Option.map_map]
  exact Option.map_id_apply

/-- Writing pairs one after another into a table makes the rows of a map. -/
theorem ofList_pairs (pairs : List (Value × Value)) :
    Table.ofList (pairs.map fun pair => (pair.1.inspect, pair)) = slots pairs := by
  rw [Table.eq_filterMap_names (Table.nodup_ofList _), Table.names_ofList, List.map_map]
  simp only [get?_ofList_pairs]
  rfl

theorem names_slots (pairs : List (Value × Value)) :
    Table.names (slots pairs) = (pairs.map fun pair => pair.1.inspect).eraseDups := by
  rw [← ofList_pairs, Table.names_ofList, List.map_map]
  rfl

theorem get?_slots (pairs : List (Value × Value)) (printed : String) :
    Table.get? (slots pairs) printed = lastPrinting printed pairs := by
  rw [← ofList_pairs, get?_ofList_pairs]

/-- What a map answers to a key. -/
theorem index_slots (ident : Nat) (pairs : List (Value × Value)) (key : Value) :
    (hash ident (slots pairs)).index key =
      ((lastPrinting key.inspect pairs).map Prod.snd).getD .null := by
  rw [index, get?_slots]

/-- Every row of a map stands under the printed form of its key, and no two rows under the same. -/
structure KeyedByPrint (rows : List (String × Value × Value)) : Prop where
  slot : ∀ row ∈ rows, row.1 = row.2.1.inspect
  nodup : (Table.names rows).Nodup

theorem keyedByPrint_slots (pairs : List (Value × Value)) : KeyedByPrint (slots pairs) where
  slot row hrow := by
    obtain ⟨printed, -, hlast⟩ := List.mem_filterMap.mp hrow
    obtain ⟨pair, hpair, rfl⟩ := Option.map_eq_some_iff.mp hlast
    have hmem := List.mem_filter.mp (List.mem_of_getLast? hpair)
    exact (of_decide_eq_true hmem.2).symm
  nodup := by
    rw [← ofList_pairs]
    exact Table.nodup_ofList _

end Value

end Scripting
