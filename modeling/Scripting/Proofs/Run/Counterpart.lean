import Scripting.Proofs.Run.Corresponds
import Scripting.Proofs.Run.Nodes
import Scripting.Proofs.Run.Stored
import Scripting.Proofs.Scopes.Lookup
import Scripting.Proofs.Value.Everywhere
import Scripting.Proofs.Value.Rename

/-!
# States of two runs

Two runs of one tree are compared state by state. The second run may start in a state in which
other scopes and objects are there already, so its numbers are those of the first run shifted by
what it found; what it found stays as it was. Some names may be hidden: rows under them count only
in the oldest scopes. `Comparison` says which states correspond in this way, and each act that does
not look at a hidden name keeps them corresponding.
-/

namespace Scripting

namespace Table

variable {α : Type} (p : String → Bool)

/-- The rows of a table whose names satisfy `p`. -/
def restrict (p : String → Bool) (t : Table α) : Table α :=
  t.filter fun row => p row.1

theorem restrict_eq_self {p : String → Bool} (hp : ∀ name, p name = true) (t : Table α) :
    t.restrict p = t := by
  simp [restrict, hp]

theorem get?_restrict {p : String → Bool} {name : String} (hp : p name = true) (t : Table α) :
    (t.restrict p).get? name = t.get? name := by
  induction t with
  | nil => rfl
  | cons row t ih =>
      obtain ⟨n, a⟩ := row
      by_cases hn : n = name
      · subst hn
        simp [restrict, hp, get?_cons]
      · cases hpn : p n with
        | true => simpa [restrict, hpn, get?_cons, hn] using ih
        | false => simpa [restrict, hpn, get?_cons, hn] using ih

/-- Writing a row that does not count changes nothing that counts. -/
theorem restrict_set (t : Table α) (name : String) (a : α) :
    (t.set name a).restrict p =
      if p name then (t.restrict p).set name a else t.restrict p := by
  induction t with
  | nil => cases hp : p name <;> simp [restrict, hp]
  | cons row t ih =>
      obtain ⟨n, b⟩ := row
      have hcons (n : String) (b : α) (t : Table α) : restrict p ((n, b) :: t) =
          if p n then (n, b) :: t.restrict p else t.restrict p := by
        simp only [restrict, List.filter_cons]
      rw [set_cons]
      by_cases hn : n = name
      · subst hn
        cases hp : p n <;> simp [hcons, hp, set_cons]
      · rw [if_neg hn, hcons, hcons, ih]
        cases hp : p name <;> cases hpn : p n <;> simp [set_cons, hn]

end Table

namespace Class

/-- The lineage of an ancestor is part of the lineage. -/
theorem lineage_subset {c k : Class} (h : k ∈ c.lineage) : ∀ j ∈ k.lineage, j ∈ c.lineage := by
  obtain ⟨own, ancestors⟩ := c
  induction ancestors generalizing own with
  | nil =>
      rw [List.mem_singleton.mp h]
      exact fun j hj => hj
  | cons parent rest ih =>
      rcases List.mem_cons.mp h with rfl | h
      · exact fun j hj => hj
      · exact fun j hj => List.mem_cons_of_mem _ (ih parent h j hj)

theorem mem_lineage_self (c : Class) : c ∈ c.lineage := by
  rw [lineage_eq]
  exact List.mem_cons_self

theorem superclass?_mem_lineage {c k : Class} (h : c.superclass? = some k) : k ∈ c.lineage := by
  rw [lineage_eq, h]
  exact List.mem_cons_of_mem _ k.mem_lineage_self

/-- A method is found on a class of the lineage, among its own methods. -/
theorem findMethod?_eq_some {c k : Class} {walk : Bool} {name : String} {f : Closure}
    (h : c.findMethod? walk name = some (f, k)) :
    k ∈ c.lineage ∧ k.own.methods.get? name = some f := by
  obtain ⟨k', hk', hf⟩ := List.exists_of_findSome?_eq_some h
  obtain ⟨method, hmethod, heq⟩ := Option.map_eq_some_iff.mp hf
  cases heq
  refine ⟨?_, hmethod⟩
  cases walk with
  | true => exact hk'
  | false =>
      rw [List.mem_singleton.mp hk']
      exact c.mem_lineage_self

/-- A method of the class itself is found first. -/
theorem findMethod?_of_get? {c : Class} {name : String} {f : Closure}
    (h : c.own.methods.get? name = some f) (walk : Bool) :
    c.findMethod? walk name = some (f, c) := by
  unfold findMethod?
  cases walk with
  | false => rw [if_neg Bool.false_ne_true, List.findSome?_singleton, h, Option.map_some]
  | true => rw [if_pos rfl, lineage_eq, List.findSome?_cons, h, Option.map_some]

end Class

/-- How two runs of one tree are compared. -/
structure Comparison where
  /-- The state that the second run found. -/
  base : State
  /-- The names under which bindings do not count, but for the oldest scopes. -/
  hidden : String → Bool
  /-- How many of the oldest scopes have all their bindings count. -/
  whole : Nat
  /-- The nodes that the first run may come to. -/
  Admits : Part → Prop
  /-- The classes that the first run may make. -/
  AdmitsClass : Class → Prop
  /-- Whether the runs may part once the first gives a runtime error. -/
  partsOnError : Prop

/-- The numbers of a run behind what it found. -/
def State.shift (base : State) : Renaming where
  scope i := i + base.scopes.size
  object i := i + base.properties.size
  ident i := i + base.nextIdent
  object_injective _ _ h := Nat.add_right_cancel h
  ident_injective _ _ h := Nat.add_right_cancel h

namespace Comparison

variable (K : Comparison)

/-- The numbers of the second run for those of the first. -/
abbrev shift : Renaming :=
  K.base.shift

/-! ### Corresponding values -/

/-- All nodes of a body are admitted. -/
def AdmitsBody (body : Block) : Prop :=
  ∀ n ∈ Block.nodes body, K.Admits n

/-- A class and its ancestors are admitted, and so are the bodies of their methods. -/
def HoldsClass (c : Class) : Prop :=
  ∀ k ∈ c.lineage, K.AdmitsClass k ∧ k.own.methods.All fun f => K.AdmitsBody f.body

/-- What functions, classes and objects have to satisfy in the first run. -/
def HoldsAt : Value → Prop
  | .function f => K.AdmitsBody f.body
  | .cls c => K.HoldsClass c
  | .object o => K.HoldsClass o.cls
  | .boundMethod _ f o owner =>
      K.AdmitsBody f.body ∧ K.HoldsClass o.cls ∧ K.HoldsClass owner
  | _ => True

/-- The values that the first run may hold. -/
def Holds (v : Value) : Prop :=
  v.Everywhere K.HoldsAt

/-- A value of the first run and the one of the second that corresponds to it. -/
def Values (v w : Value) : Prop :=
  K.Holds v ∧ w = v.rename K.shift

/-- The results after which the runs may part. -/
def Excused (v : Value) : Prop :=
  K.partsOnError ∧ v.isError = true

variable {K}

theorem holds_of_isPlain {v : Value} (h : v.IsPlain) : K.Holds v := by
  cases v <;> trivial

theorem values_of_isPlain {v : Value} (h : v.IsPlain) : K.Values v v :=
  ⟨holds_of_isPlain h, (Value.rename_of_isPlain K.shift h).symm⟩

theorem holds_array {i : Nat} {vs : List Value} :
    K.Holds (.array i vs) ↔ ∀ v ∈ vs, K.Holds v := by
  rw [Holds, Value.everywhere_array]
  exact and_iff_right trivial

theorem holds_hash {i : Nat} {rows : List (String × Value × Value)} :
    K.Holds (.hash i rows) ↔ ∀ row ∈ rows, K.Holds row.2.1 ∧ K.Holds row.2.2 := by
  rw [Holds, Value.everywhere_hash]
  exact and_iff_right trivial

theorem holds_returned {v : Value} : K.Holds (.returned v) ↔ K.Holds v := by
  rw [Holds, Value.Everywhere]
  exact and_iff_right trivial

theorem holds_unwrapReturn {v : Value} (h : K.Holds v) : K.Holds v.unwrapReturn := by
  cases v with
  | returned v => exact holds_returned.mp h
  | _ => exact h

theorem holds_function {f : Closure} : K.Holds (.function f) ↔ K.AdmitsBody f.body := by
  rw [Holds, Value.Everywhere]
  · rfl
  all_goals nofun

theorem holds_cls {c : Class} : K.Holds (.cls c) ↔ K.HoldsClass c := by
  rw [Holds, Value.Everywhere]
  · rfl
  all_goals nofun

theorem holds_object {o : Object} : K.Holds (.object o) ↔ K.HoldsClass o.cls := by
  rw [Holds, Value.Everywhere]
  · rfl
  all_goals nofun

theorem holds_boundMethod {i : Nat} {f : Closure} {o : Object} {owner : Class} :
    K.Holds (.boundMethod i f o owner) ↔
      K.AdmitsBody f.body ∧ K.HoldsClass o.cls ∧ K.HoldsClass owner := by
  rw [Holds, Value.Everywhere]
  · rfl
  all_goals nofun

/-- What a comparison without conditions admits is everything. -/
theorem holds_of_admits (hnodes : ∀ n, K.Admits n) (hclasses : ∀ c, K.AdmitsClass c) (v : Value) :
    K.Holds v := by
  have hbody (body : Block) : K.AdmitsBody body := fun n _ => hnodes n
  have hclass (c : Class) : K.HoldsClass c := fun k _ => ⟨hclasses k, fun row _ => hbody _⟩
  refine Value.everywhere_of (fun v => ?_) v
  cases v with
  | function f => exact hbody _
  | cls c => exact hclass c
  | object o => exact hclass _
  | boundMethod i f o owner => exact ⟨hbody _, hclass _, hclass _⟩
  | _ => trivial

namespace HoldsClass

variable {c k : Class}

theorem of_mem_lineage (h : K.HoldsClass c) (hk : k ∈ c.lineage) : K.HoldsClass k :=
  fun j hj => h j (Class.lineage_subset hk j hj)

theorem superclass (h : K.HoldsClass c) (hk : c.superclass? = some k) : K.HoldsClass k :=
  h.of_mem_lineage (Class.superclass?_mem_lineage hk)

theorem methods (h : K.HoldsClass c) : c.own.methods.All fun f => K.AdmitsBody f.body :=
  (h c c.mem_lineage_self).2

theorem findMethod? (h : K.HoldsClass c) {walk : Bool} {name : String} {f : Closure}
    (hf : c.findMethod? walk name = some (f, k)) : K.AdmitsBody f.body ∧ K.HoldsClass k := by
  obtain ⟨hk, hget⟩ := Class.findMethod?_eq_some hf
  have hkc := h.of_mem_lineage hk
  exact ⟨hkc.methods.get? hget, hkc⟩

end HoldsClass

/-! ### Corresponding scopes -/

variable (K)

/-- Which rows of a scope count. -/
def counts (scope : Nat) (name : String) : Bool :=
  scope < K.whole || !K.hidden name

/-- Tables of a new scope that agree in all that counts. -/
def Tables (table table' : Table Value) : Prop :=
  table'.restrict (!K.hidden ·) =
    (table.mapContents (Value.rename K.shift)).restrict (!K.hidden ·)

/-- Scopes of the first run and what the second run has in their place, behind the scopes that it
found. -/
structure ScopesMatch (S T : Scopes Value) : Prop where
  whole_le : K.whole ≤ S.size
  size : T.size = S.size + K.base.scopes.size
  outer : ∀ i, T.outer? (K.shift.scope i) = (S.outer? i).map K.shift.scope
  bindings : ∀ i, (T.bindings (K.shift.scope i)).restrict (K.counts i) =
    ((S.bindings i).mapContents (Value.rename K.shift)).restrict (K.counts i)
  found_outer : ∀ i < K.base.scopes.size, T.outer? i = K.base.scopes.outer? i
  found_bindings : ∀ i < K.base.scopes.size, T.bindings i = K.base.scopes.bindings i

variable {K}

theorem counts_of_visible {name : String} (h : K.hidden name = false) (scope : Nat) :
    K.counts scope name = true := by
  simp [counts, h]

theorem counts_new {scope : Nat} (h : K.whole ≤ scope) : K.counts scope = (!K.hidden ·) := by
  funext name
  simp [counts, Nat.not_lt.mpr h]

namespace ScopesMatch

variable {S T : Scopes Value} (h : K.ScopesMatch S T)
include h

/-- A scope in which every binding counts corresponds as a whole. -/
theorem bindings_of_counts {i : Nat} (hcounts : ∀ name, K.counts i name = true) :
    T.bindings (K.shift.scope i) = (S.bindings i).mapContents (Value.rename K.shift) := by
  have hbindings := h.bindings i
  rwa [Table.restrict_eq_self hcounts, Table.restrict_eq_self hcounts] at hbindings

theorem get?_bindings {name : String} (hname : K.hidden name = false) (i : Nat) :
    (T.bindings (K.shift.scope i)).get? name =
      ((S.bindings i).get? name).map (Value.rename K.shift) := by
  have hcounts := K.counts_of_visible hname i
  rw [← Table.get?_restrict hcounts, h.bindings, Table.get?_restrict hcounts,
    Table.get?_mapContents]

theorem chain (i : Nat) : T.chain (K.shift.scope i) = (S.chain i).map K.shift.scope := by
  induction i using Nat.strongRecOn with
  | ind i ih =>
      have hlt : K.shift.scope i < T.size ↔ i < S.size := by
        rw [h.size]
        exact Nat.add_lt_add_iff_right
      rw [T.chain_eq, S.chain_eq, h.outer]
      by_cases hi : i < S.size
      · rw [if_pos (hlt.mpr hi), if_pos hi]
        cases ho : S.outer? i with
        | none => rfl
        | some o =>
            simp only [Option.map_some, List.map_cons]
            rw [ih o (Scopes.outer?_lt ho)]
      · rw [if_neg (mt hlt.mp hi), if_neg hi, List.map_nil]

theorem get? {name : String} (hname : K.hidden name = false) (i : Nat) :
    T.get? (K.shift.scope i) name = (S.get? i name).map (Value.rename K.shift) := by
  unfold Scopes.get?
  rw [h.chain, List.findSome?_map, List.map_findSome?]
  congr 1
  funext j
  exact h.get?_bindings hname j

theorem owner? {name : String} (hname : K.hidden name = false) (i : Nat) :
    T.owner? (K.shift.scope i) name = (S.owner? i name).map K.shift.scope := by
  unfold Scopes.owner?
  rw [h.chain, List.find?_map]
  congr 2
  funext j
  simp only [Function.comp_apply, Scopes.binds]
  rw [h.get?_bindings hname j, Option.isSome_map]

theorem set (i : Nat) (name : String) (v : Value) :
    K.ScopesMatch (S.set i name v) (T.set (K.shift.scope i) name (v.rename K.shift)) where
  whole_le := by
    rw [Scopes.size_set]
    exact h.whole_le
  size := by rw [Scopes.size_set, Scopes.size_set, h.size]
  outer j := by rw [Scopes.outer?_set, Scopes.outer?_set, h.outer]
  bindings j := by
    have hcond : (K.shift.scope j = K.shift.scope i ∧ K.shift.scope i < T.size) ↔
        (j = i ∧ i < S.size) := by
      rw [h.size]
      exact and_congr Nat.add_right_cancel_iff Nat.add_lt_add_iff_right
    rw [Scopes.bindings_set, Scopes.bindings_set]
    by_cases hj : j = i ∧ i < S.size
    · rw [if_pos (hcond.mpr hj), if_pos hj, ← Table.set_mapContents, Table.restrict_set,
        Table.restrict_set, hj.1, h.bindings]
    · rw [if_neg (mt hcond.mp hj), if_neg hj, h.bindings]
  found_outer j hj := by rw [Scopes.outer?_set, h.found_outer j hj]
  found_bindings j hj := by
    have hne : ¬(j = K.shift.scope i ∧ K.shift.scope i < T.size) := fun hji =>
      absurd (hji.1 ▸ hj) (Nat.not_lt.mpr (Nat.le_add_left _ _))
    rw [Scopes.bindings_set, if_neg hne, h.found_bindings j hj]

theorem addInside (i : Nat) {table table' : Table Value} (ht : K.Tables table table') :
    K.ScopesMatch (S.addInside i table) (T.addInside (K.shift.scope i) table') where
  whole_le := by
    rw [Scopes.size_addInside]
    exact Nat.le_succ_of_le h.whole_le
  size := by
    rw [Scopes.size_addInside, Scopes.size_addInside, h.size]
    omega
  outer j := by
    have hj : K.shift.scope j = T.size ↔ j = S.size := by
      rw [h.size]
      exact Nat.add_right_cancel_iff
    have hi : K.shift.scope i < T.size ↔ i < S.size := by
      rw [h.size]
      exact Nat.add_lt_add_iff_right
    rw [Scopes.outer?_addInside_eq, Scopes.outer?_addInside_eq]
    simp only [hj, hi, h.outer]
    split
    · split <;> rfl
    · rfl
  bindings j := by
    have hj : K.shift.scope j = T.size ↔ j = S.size := by
      rw [h.size]
      exact Nat.add_right_cancel_iff
    rw [Scopes.bindings_addInside, Scopes.bindings_addInside]
    simp only [hj]
    split
    · next hnew =>
        rw [hnew, counts_new h.whole_le]
        exact ht
    · exact h.bindings j
  found_outer j hj := by
    have hne : j ≠ T.size := by
      rw [h.size]
      omega
    rw [Scopes.outer?_addInside_eq, if_neg hne, h.found_outer j hj]
  found_bindings j hj := by
    have hne : j ≠ T.size := by
      rw [h.size]
      omega
    rw [Scopes.bindings_addInside, if_neg hne, h.found_bindings j hj]

end ScopesMatch

/-! ### Corresponding states -/

variable (K)

/-- A state of the first run and one of the second that corresponds to it. -/
structure States (s t : State) : Prop where
  holds : s.Stores K.Holds
  scopes : K.ScopesMatch s.scopes t.scopes
  properties_size : t.properties.size = s.properties.size + K.base.properties.size
  properties : ∀ i, t.properties[K.shift.object i]? =
    s.properties[i]?.map (Table.mapContents (Value.rename K.shift))
  found_properties : ∀ i < K.base.properties.size, t.properties[i]? = K.base.properties[i]?
  nextIdent : t.nextIdent = K.shift.ident s.nextIdent
  output : t.output = K.base.output ++ s.output

variable {K}

/-! ### Acts -/

/-- What two lookups give. -/
abbrev Answers (K : Comparison) : Option Value → Option Value → Prop :=
  Option.Rel K.Values

theorem answers_map {a : Option Value} (h : ∀ v ∈ a, K.Holds v) :
    K.Answers a (a.map (Value.rename K.shift)) := by
  cases a with
  | none => exact .none
  | some v => exact .some ⟨h v rfl, rfl⟩

theorem freshIdent_matches :
    Eval.freshIdent.Matches K.States (fun i j => j = K.shift.ident i) Eval.freshIdent := by
  refine Eval.Matches.act fun s t h => ⟨?_, h.nextIdent⟩
  refine { h with nextIdent := ?_, holds := ⟨h.holds.bindings, h.holds.properties⟩ }
  have hnext : t.nextIdent = s.nextIdent + K.base.nextIdent := h.nextIdent
  change t.nextIdent + 1 = s.nextIdent + 1 + K.base.nextIdent
  omega

theorem printLine_matches (line : String) :
    (Eval.printLine line).Matches K.States (fun _ _ => True) (Eval.printLine line) := by
  refine Eval.Matches.act fun s t h => ⟨?_, trivial⟩
  refine { h with output := ?_, holds := ⟨h.holds.bindings, h.holds.properties⟩ }
  change t.output ++ line ++ "\n" = K.base.output ++ (s.output ++ line ++ "\n")
  rw [h.output, String.append_assoc, String.append_assoc, String.append_assoc]

theorem lookup_matches {name : String} (hname : K.hidden name = false) (scope : Nat) :
    (Eval.lookup scope name).Matches K.States K.Answers
      (Eval.lookup (K.shift.scope scope) name) := by
  refine Eval.Matches.act fun s t h => ⟨h, ?_⟩
  change K.Answers (s.scopes.get? scope name) (t.scopes.get? (K.shift.scope scope) name)
  rw [h.scopes.get? hname]
  exact answers_map fun v hv => h.holds.bindings.get? hv

theorem bindName_matches (scope : Nat) (name : String) {v w : Value} (hv : K.Values v w) :
    (Eval.bindName scope name v).Matches K.States (fun _ _ => True)
      (Eval.bindName (K.shift.scope scope) name w) := by
  obtain ⟨hv, rfl⟩ := hv
  refine Eval.Matches.act fun s t h => ⟨?_, trivial⟩
  exact { h with
    holds := h.holds.withScopes (h.holds.bindings.set scope name hv)
    scopes := h.scopes.set scope name v }

theorem assignName_matches {name : String} (hname : K.hidden name = false) (scope : Nat)
    {v w : Value} (hv : K.Values v w) :
    (Eval.assignName scope name v).Matches K.States Eq
      (Eval.assignName (K.shift.scope scope) name w) := by
  obtain ⟨hv, rfl⟩ := hv
  refine Eval.Matches.act fun s t h => ?_
  unfold Scopes.assign?
  rw [h.scopes.owner? hname]
  cases s.scopes.owner? scope name with
  | none => exact ⟨h, rfl⟩
  | some i => exact ⟨{ h with
      holds := h.holds.withScopes (h.holds.bindings.set i name hv)
      scopes := h.scopes.set i name v }, rfl⟩

theorem enterScope_matches (outer : Nat) {table table' : Table Value}
    (hholds : table.All K.Holds) (ht : K.Tables table table') :
    (Eval.enterScope outer table).Matches K.States (fun i j => j = K.shift.scope i)
      (Eval.enterScope (K.shift.scope outer) table') := by
  refine Eval.Matches.act fun s t h => ⟨?_, h.scopes.size⟩
  exact { h with
    holds := h.holds.withScopes (h.holds.bindings.addInside outer hholds)
    scopes := h.scopes.addInside outer ht }

theorem newObject_matches (c : Class) {properties : Table Value} (hholds : properties.All K.Holds) :
    (Eval.newObject c properties).Matches K.States
      (fun o p => o.cls = c ∧ p = o.rename K.shift)
      (Eval.newObject (c.rename K.shift) (properties.mapContents (Value.rename K.shift))) := by
  refine Eval.Matches.act fun s t h => ⟨?_, rfl, ?_⟩
  · refine { h with
      holds := h.holds.pushProperties hholds
      properties_size := ?_
      properties := fun i => ?_
      found_properties := fun i hi => ?_ }
    · rw [Array.size_push, Array.size_push, h.properties_size]
      omega
    · have hi : K.shift.object i = t.properties.size ↔ i = s.properties.size := by
        rw [h.properties_size]
        exact Nat.add_right_cancel_iff
      rw [Array.getElem?_push, Array.getElem?_push, h.properties]
      simp only [hi]
      split <;> rfl
    · have hne : i ≠ t.properties.size := by
        rw [h.properties_size]
        omega
      rw [Array.getElem?_push, if_neg hne, h.found_properties i hi]
  · change (⟨t.properties.size, _⟩ : Object) = ⟨K.shift.object s.properties.size, _⟩
    rw [h.properties_size]
    rfl

theorem ownProperty?_matches (o : Object) (name : String) :
    (Eval.ownProperty? o name).Matches K.States K.Answers
      (Eval.ownProperty? (o.rename K.shift) name) := by
  refine Eval.Matches.act fun s t h => ⟨h, ?_⟩
  have hproperty : (t.properties[(o.rename K.shift).ident]?.bind (·.get? name)) =
      (s.properties[o.ident]?.bind (·.get? name)).map (Value.rename K.shift) := by
    refine (congrArg (Option.bind · _) (h.properties o.ident)).trans ?_
    cases s.properties[o.ident]? with
    | none => rfl
    | some table => exact Table.get?_mapContents _ table name
  change K.Answers (s.properties[o.ident]?.bind (·.get? name))
    (t.properties[(o.rename K.shift).ident]?.bind (·.get? name))
  rw [hproperty]
  exact answers_map fun v hv => h.holds.property hv

theorem setOwnProperty_matches (o : Object) (name : String) {v w : Value} (hv : K.Values v w) :
    (Eval.setOwnProperty o name v).Matches K.States (fun _ _ => True)
      (Eval.setOwnProperty (o.rename K.shift) name w) := by
  obtain ⟨hv, rfl⟩ := hv
  refine Eval.Matches.act fun s t h => ⟨?_, trivial⟩
  have ho : (o.rename K.shift).ident = K.shift.object o.ident := rfl
  refine { h with
    holds := h.holds.setProperty o.ident name hv
    properties_size := ?_
    properties := fun i => ?_
    found_properties := fun i hi => ?_ }
  · rw [Array.size_modify, Array.size_modify, h.properties_size]
  · rw [ho, Array.getElem?_modify, Array.getElem?_modify, h.properties]
    by_cases hi : o.ident = i
    · subst hi
      rw [if_pos rfl, if_pos rfl]
      cases s.properties[o.ident]? with
      | none => rfl
      | some table => exact congrArg some (Table.set_mapContents _ table name v)
    · have hne : K.shift.object o.ident ≠ K.shift.object i := fun h =>
        hi (K.shift.object_injective h)
      rw [if_neg hi, if_neg hne]
  · have hne : K.shift.object o.ident ≠ i := fun h =>
      absurd (h ▸ hi) (Nat.not_lt.mpr (Nat.le_add_left _ _))
    rw [ho, Array.getElem?_modify, if_neg hne, h.found_properties i hi]

end Comparison

end Scripting
