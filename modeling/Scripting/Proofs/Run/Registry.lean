import Mathlib.Logic.Function.Basic
import Scripting.Proofs.Run.Counterpart

/-!
# Registries of identities

A list, a map, a function, a class, a bound method and an object have an identity each, and of such
values `Value.same` compares nothing else. A registry says what each identity was given to. It knows
a value if all that has an identity in this value is what the registry has under the identity, so
two values which one registry knows are equal as soon as they are the same (`eq_of_same`).
-/

namespace Scripting

/-- What each identity was given to. -/
structure Registry where
  /-- The list, map, function, class or bound method with an identity. -/
  value : Nat → Option Value
  /-- The class of the object with an identity. -/
  object : Nat → Option Class

namespace Registry

/-- The registry in which no identity was given to anything. -/
def empty : Registry :=
  ⟨fun _ => none, fun _ => none⟩

section

variable (w : Registry)

/-- The function with the identity of `f` is `f`. -/
def KnowsClosure (f : Closure) : Prop :=
  w.value f.ident = some (.function f)

/-- A class, its ancestors and the methods of all of them are known. -/
def KnowsClass (c : Class) : Prop :=
  ∀ k ∈ c.lineage, w.value k.own.ident = some (.cls k) ∧ k.own.methods.All w.KnowsClosure

/-- An object is known with its class. -/
def KnowsObject (o : Object) : Prop :=
  w.object o.ident = some o.cls ∧ w.KnowsClass o.cls

/-- A value is known, but for the values in it. -/
def KnowsAt : Value → Prop
  | .array i elements => w.value i = some (.array i elements)
  | .hash i rows => w.value i = some (.hash i rows)
  | .function f => w.KnowsClosure f
  | .cls c => w.KnowsClass c
  | .object o => w.KnowsObject o
  | .boundMethod i f o owner =>
      w.value i = some (.boundMethod i f o owner) ∧
        w.KnowsClosure f ∧ w.KnowsObject o ∧ w.KnowsClass owner
  | _ => True

/-- A value is known with all that is in it. -/
def Knows (v : Value) : Prop :=
  v.Everywhere w.KnowsAt

end

variable {w w' : Registry}

/-! ### Known values -/

theorem knows_of_isPlain {v : Value} (h : v.IsPlain) : w.Knows v := by
  cases v <;> trivial

theorem knows_array {i : Nat} {elements : List Value} :
    w.Knows (.array i elements) ↔
      w.value i = some (.array i elements) ∧ ∀ v ∈ elements, w.Knows v :=
  Value.everywhere_array i elements

theorem knows_hash {i : Nat} {rows : List (String × Value × Value)} :
    w.Knows (.hash i rows) ↔
      w.value i = some (.hash i rows) ∧ ∀ row ∈ rows, w.Knows row.2.1 ∧ w.Knows row.2.2 :=
  Value.everywhere_hash i rows

theorem knows_returned {v : Value} : w.Knows (.returned v) ↔ w.Knows v := by
  rw [Knows, Value.Everywhere]
  exact and_iff_right trivial

theorem knows_unwrapReturn {v : Value} (h : w.Knows v) : w.Knows v.unwrapReturn := by
  cases v with
  | returned v => exact knows_returned.mp h
  | _ => exact h

theorem knows_content {i : Nat} {rows : List (String × Value × Value)} (h : w.Knows (.hash i rows))
    (name : String) : w.Knows (((Table.get? rows name).map Prod.snd).getD .null) := by
  cases hget : Table.get? rows name with
  | none => exact knows_of_isPlain trivial
  | some pair =>
      have hall : Table.All (fun pair : Value × Value => w.Knows pair.1 ∧ w.Knows pair.2) rows :=
        (knows_hash.mp h).2
      exact (hall.get? hget).2

theorem knows_index {v : Value} (h : w.Knows v) (position : Value) :
    w.Knows (v.index position) := by
  unfold Value.index
  split
  · next i elements n =>
      split
      · cases hget : elements[n.toNat]? with
        | none => exact knows_of_isPlain trivial
        | some u => exact (knows_array.mp h).2 u (List.mem_of_getElem? hget)
      · exact knows_of_isPlain trivial
  · exact knows_content h _
  · exact knows_of_isPlain trivial

theorem knowsClass_of_mem {c k : Class} (h : w.KnowsClass c) (hk : k ∈ c.lineage) :
    w.KnowsClass k :=
  fun j hj => h j (Class.lineage_subset hk j hj)

/-- A method that is found is known, and so is the class that it is found on. -/
theorem knows_findMethod? {c k : Class} {walk : Bool} {name : String} {f : Closure}
    (h : w.KnowsClass c) (hfound : c.findMethod? walk name = some (f, k)) :
    w.KnowsClosure f ∧ w.KnowsClass k := by
  obtain ⟨hk, hf⟩ := Class.findMethod?_eq_some hfound
  exact ⟨(h k hk).2.get? hf, knowsClass_of_mem h hk⟩

/-- A class is known once its own identity and those of its methods are given and what it inherits
from is known. -/
theorem knowsClass_of_own {k : ClassBody} {ancestors : List ClassBody}
    (hk : w.value k.ident = some (.cls ⟨k, ancestors⟩)) (hmethods : k.methods.All w.KnowsClosure)
    (hancestors : ancestors = [] ∨
      ∃ c : Class, w.KnowsClass c ∧ ancestors = c.own :: c.ancestors) :
    w.KnowsClass ⟨k, ancestors⟩ := by
  rcases hancestors with rfl | ⟨c, hc, rfl⟩
  · intro j hj
    rw [List.mem_singleton.mp hj]
    exact ⟨hk, hmethods⟩
  · intro j hj
    rcases List.mem_cons.mp hj with rfl | hj
    · exact ⟨hk, hmethods⟩
    · exact hc j hj

/-- Two known values that are the same are equal. -/
theorem eq_of_same {u v : Value} (hu : w.Knows u) (hv : w.Knows v) (h : u.same v = true) :
    u = v := by
  have hunique {i j : Nat} {a b : Value} (ha : w.value i = some a) (hb : w.value j = some b)
      (hij : (i == j) = true) : a = b := by
    rw [beq_iff_eq.mp hij] at ha
    exact Option.some.inj (ha.symm.trans hb)
  fun_induction Value.same u v with
  | case1 a b => rw [beq_iff_eq.mp h]
  | case2 a b => rw [beq_iff_eq.mp h]
  | case3 a b => rw [beq_iff_eq.mp h]
  | case4 => rfl
  | case5 i _ j _ => exact hunique (knows_array.mp hu).1 (knows_array.mp hv).1 h
  | case6 i _ j _ => exact hunique (knows_hash.mp hu).1 (knows_hash.mp hv).1 h
  | case7 f g => exact hunique hu.head hv.head h
  | case8 a b => rw [beq_iff_eq.mp h]
  | case9 c d => exact hunique (hu.head c c.mem_lineage_self).1 (hv.head d d.mem_lineage_self).1 h
  | case10 o p =>
      obtain ⟨i, c⟩ := o
      obtain ⟨j, d⟩ := p
      obtain rfl : i = j := beq_iff_eq.mp h
      have hcls : some c = some d := hu.head.1.symm.trans hv.head.1
      rw [Option.some.inj hcls]
  | case11 i _ _ _ j _ _ _ => exact hunique hu.head.1 hv.head.1 h
  | case12 a b ih => rw [ih (knows_returned.mp hu) (knows_returned.mp hv) h]
  | case13 e f => rw [beq_iff_eq.mp h]
  | case14 => cases h

/-! ### Giving identities -/

/-- What has an identity in one registry has it in the other. -/
structure Extends (w w' : Registry) : Prop where
  value : ∀ {i v}, w.value i = some v → w'.value i = some v
  object : ∀ {i c}, w.object i = some c → w'.object i = some c

theorem Extends.refl (w : Registry) : w.Extends w :=
  ⟨id, id⟩

theorem Extends.trans {w'' : Registry} (h : w.Extends w') (h' : w'.Extends w'') : w.Extends w'' :=
  ⟨fun hv => h'.value (h.value hv), fun hc => h'.object (h.object hc)⟩

theorem KnowsClass.mono {c : Class} (h : w.KnowsClass c) (hext : w.Extends w') :
    w'.KnowsClass c :=
  fun k hk => ⟨hext.value (h k hk).1, (h k hk).2.mono fun _ => hext.value⟩

theorem KnowsObject.mono {o : Object} (h : w.KnowsObject o) (hext : w.Extends w') :
    w'.KnowsObject o :=
  ⟨hext.object h.1, h.2.mono hext⟩

theorem Knows.mono {v : Value} (h : w.Knows v) (hext : w.Extends w') : w'.Knows v := by
  refine Value.Everywhere.mono (fun u hu => ?_) h
  cases u with
  | array | hash | function => exact hext.value hu
  | cls => exact KnowsClass.mono hu hext
  | object => exact KnowsObject.mono hu hext
  | boundMethod =>
      exact ⟨hext.value hu.1, hext.value hu.2.1, hu.2.2.1.mono hext, hu.2.2.2.mono hext⟩
  | _ => trivial

/-- The registry in which an identity was given to a value. -/
def give (w : Registry) (i : Nat) (v : Value) : Registry :=
  { w with value := Function.update w.value i (some v) }

/-- The registry in which the identity of an object was given to one of a class. -/
def giveObject (w : Registry) (i : Nat) (c : Class) : Registry :=
  { w with object := Function.update w.object i (some c) }

theorem extends_give {i : Nat} (h : w.value i = none) (v : Value) : w.Extends (w.give i v) where
  value {j u} hu := by
    have hne : j ≠ i := by
      rintro rfl
      cases h.symm.trans hu
    exact (Function.update_of_ne hne ..).trans hu
  object := id

theorem extends_giveObject {i : Nat} (h : w.object i = none) (c : Class) :
    w.Extends (w.giveObject i c) where
  value := id
  object {j d} hd := by
    have hne : j ≠ i := by
      rintro rfl
      cases h.symm.trans hd
    exact (Function.update_of_ne hne ..).trans hd

/-! ### Registries of a state -/

/-- The registry knows all that a state stores and has given no identity that the state has yet to
give. -/
structure Fits (w : Registry) (s : State) : Prop where
  stores : s.Stores w.Knows
  value : ∀ i, s.nextIdent ≤ i → w.value i = none
  object : ∀ i, s.properties.size ≤ i → w.object i = none

theorem empty_fits : empty.Fits State.initial :=
  ⟨State.Stores.initial, fun _ _ => rfl, fun _ _ => rfl⟩

/-- A state that stores known values fits where it gave as many identities. -/
theorem Fits.of_stores {s t : State} (h : w.Fits s) (hstores : t.Stores w.Knows)
    (hident : s.nextIdent = t.nextIdent) (hobjects : s.properties.size = t.properties.size) :
    w.Fits t where
  stores := hstores
  value i hi := h.value i (hident ▸ hi)
  object i hi := h.object i (hobjects ▸ hi)

theorem stores_mono {s : State} (h : s.Stores w.Knows) (hext : w.Extends w') : s.Stores w'.Knows :=
  h.mono fun _ hv => hv.mono hext

/-- The next identity may go to any value. -/
theorem Fits.give {s : State} (h : w.Fits s) (v : Value) :
    (w.give s.nextIdent v).Fits { s with nextIdent := s.nextIdent + 1 } where
  stores :=
    have hstores := stores_mono h.stores (extends_give (h.value _ (Nat.le_refl _)) v)
    ⟨hstores.bindings, hstores.properties⟩
  value i hi := (Function.update_of_ne (Nat.ne_of_gt hi) ..).trans (h.value i (Nat.le_of_lt hi))
  object := h.object

/-- The next object may be one of any class that is known. -/
theorem Fits.giveObject {s : State} (h : w.Fits s) (c : Class) {table : Table Value}
    (htable : table.All w.Knows) :
    (w.giveObject s.properties.size c).Fits
      { s with properties := s.properties.push table } where
  stores := stores_mono (h.stores.pushProperties htable)
    (extends_giveObject (h.object _ (Nat.le_refl _)) c)
  value := h.value
  object i hi := by
    rw [Array.size_push] at hi
    exact (Function.update_of_ne (Nat.ne_of_gt hi) ..).trans (h.object i (Nat.le_of_lt hi))

end Registry

end Scripting
