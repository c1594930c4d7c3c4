import Scripting.Value.Operator

/-!
# Renaming identities

A renaming gives every scope, every object and every other identity a new number. Nothing that a
script can see of a value depends on these numbers but whether two of them are equal, so printing,
indexing and all operators commute with a renaming.
-/

namespace Scripting

namespace Table

variable {α β : Type}

/-- The table with the content of each row mapped. -/
def mapContents (f : α → β) (t : Table α) : Table β :=
  t.map fun row => (row.1, f row.2)

@[simp] theorem mapContents_nil (f : α → β) : mapContents f [] = [] := rfl

@[simp] theorem mapContents_cons (f : α → β) (name : String) (a : α) (t : Table α) :
    mapContents f ((name, a) :: t) = (name, f a) :: mapContents f t := rfl

theorem get?_mapContents (f : α → β) (t : Table α) (name : String) :
    (t.mapContents f).get? name = (t.get? name).map f := by
  induction t with
  | nil => rfl
  | cons row t ih =>
      obtain ⟨n, a⟩ := row
      by_cases hn : n = name <;> simp [get?_cons, hn, ih]

theorem set_mapContents (f : α → β) (t : Table α) (name : String) (a : α) :
    (t.mapContents f).set name (f a) = (t.set name a).mapContents f := by
  induction t with
  | nil => rfl
  | cons row t ih =>
      obtain ⟨n, b⟩ := row
      by_cases hn : n = name <;> simp [set_cons, hn, ih]

theorem ofList_mapContents (f : α → β) (rows : List (String × α)) :
    ofList (mapContents f rows) = (ofList rows).mapContents f := by
  have go (t : Table α) :
      (mapContents f rows).foldl (fun t row => t.set row.1 row.2) (t.mapContents f) =
        (rows.foldl (fun t row => t.set row.1 row.2) t).mapContents f := by
    induction rows generalizing t with
    | nil => rfl
    | cons row rows ih =>
        obtain ⟨n, a⟩ := row
        rw [mapContents_cons, List.foldl_cons, List.foldl_cons, set_mapContents, ih]
  exact go []

theorem mapContents_id {f : α → α} (hf : ∀ a, f a = a) (t : Table α) : t.mapContents f = t := by
  simp [mapContents, hf]

end Table

/-- New numbers for scopes, objects and all other identities. Different objects stay different, and
so do other identities. -/
structure Renaming where
  scope : Nat → Nat
  object : Nat → Nat
  ident : Nat → Nat
  object_injective : Function.Injective object
  ident_injective : Function.Injective ident

namespace Renaming

/-- The renaming that leaves all numbers as they are. -/
protected def id : Renaming :=
  ⟨fun n => n, fun n => n, fun n => n, fun _ _ h => h, fun _ _ h => h⟩

theorem object_beq (ρ : Renaming) (i j : Nat) : (ρ.object i == ρ.object j) = (i == j) := by
  rw [Bool.eq_iff_iff, beq_iff_eq, beq_iff_eq]
  exact ⟨fun h => ρ.object_injective h, congrArg ρ.object⟩

theorem ident_beq (ρ : Renaming) (i j : Nat) : (ρ.ident i == ρ.ident j) = (i == j) := by
  rw [Bool.eq_iff_iff, beq_iff_eq, beq_iff_eq]
  exact ⟨fun h => ρ.ident_injective h, congrArg ρ.ident⟩

end Renaming

/-! ### Callables and objects -/

/-- A function with its identity and its scope renamed. -/
def Closure.rename (ρ : Renaming) (f : Closure) : Closure :=
  { f with ident := ρ.ident f.ident, scope := ρ.scope f.scope }

/-- The definition of a class with all identities in it renamed. -/
def ClassBody.rename (ρ : Renaming) (k : ClassBody) : ClassBody :=
  { k with ident := ρ.ident k.ident, methods := k.methods.mapContents (Closure.rename ρ) }

/-- A class with all identities in it renamed. -/
def Class.rename (ρ : Renaming) (c : Class) : Class :=
  ⟨c.own.rename ρ, c.ancestors.map (ClassBody.rename ρ)⟩

/-- An object with its identity and its class renamed. -/
def Object.rename (ρ : Renaming) (o : Object) : Object :=
  ⟨ρ.object o.ident, o.cls.rename ρ⟩

namespace Class

variable (ρ : Renaming)

theorem superclass?_rename (c : Class) :
    (c.rename ρ).superclass? = c.superclass?.map (Class.rename ρ) := by
  obtain ⟨own, ancestors⟩ := c
  cases ancestors <;> rfl

theorem lineageOf_rename (ancestors : List ClassBody) (own : ClassBody) :
    lineageOf (own.rename ρ) (ancestors.map (ClassBody.rename ρ)) =
      (lineageOf own ancestors).map (Class.rename ρ) := by
  induction ancestors generalizing own with
  | nil => rfl
  | cons parent rest ih => rw [List.map_cons, lineageOf, ih, lineageOf, List.map_cons]; rfl

theorem findMethod?_rename (c : Class) (walk : Bool) (name : String) :
    (c.rename ρ).findMethod? walk name =
      (c.findMethod? walk name).map fun found => (found.1.rename ρ, found.2.rename ρ) := by
  have hclasses : (if walk then (c.rename ρ).lineage else [c.rename ρ]) =
      (if walk then c.lineage else [c]).map (Class.rename ρ) := by
    cases walk
    · rfl
    · exact lineageOf_rename ρ c.ancestors c.own
  unfold findMethod?
  rw [hclasses]
  induction (if walk then c.lineage else [c]) with
  | nil => rfl
  | cons k rest ih =>
      have hown : (k.rename ρ).own.methods = k.own.methods.mapContents (Closure.rename ρ) := rfl
      rw [List.map_cons, List.findSome?_cons, List.findSome?_cons, hown, Table.get?_mapContents]
      cases k.own.methods.get? name with
      | none => exact ih
      | some method => rfl

end Class

namespace Value

mutual

/-- A value with all identities in it renamed. -/
def rename (ρ : Renaming) : Value → Value
  | array i elements => array (ρ.ident i) (renameAll ρ elements)
  | hash i rows => hash (ρ.ident i) (renameRows ρ rows)
  | function f => function (f.rename ρ)
  | cls c => cls (c.rename ρ)
  | object o => object (o.rename ρ)
  | boundMethod i f o owner => boundMethod (ρ.ident i) (f.rename ρ) (o.rename ρ) (owner.rename ρ)
  | returned value => returned (value.rename ρ)
  | v => v

/-- Values with all identities in them renamed. -/
def renameAll (ρ : Renaming) : List Value → List Value
  | [] => []
  | v :: rest => v.rename ρ :: renameAll ρ rest

/-- The rows of a map with all identities in them renamed. -/
def renameRows (ρ : Renaming) : List (String × Value × Value) → List (String × Value × Value)
  | [] => []
  | (slot, key, value) :: rest => (slot, key.rename ρ, value.rename ρ) :: renameRows ρ rest

end

variable (ρ : Renaming)

theorem renameAll_eq_map (vs : List Value) : renameAll ρ vs = vs.map (rename ρ) := by
  induction vs with
  | nil => rfl
  | cons v vs ih => rw [renameAll, ih, List.map_cons]

theorem renameRows_eq_mapContents (rows : List (String × Value × Value)) :
    renameRows ρ rows =
      Table.mapContents (fun pair : Value × Value => (pair.1.rename ρ, pair.2.rename ρ)) rows := by
  induction rows with
  | nil => rfl
  | cons row rows ih =>
      obtain ⟨slot, key, value⟩ := row
      rw [renameRows, ih, Table.mapContents_cons]

theorem rename_array (i : Nat) (elements : List Value) :
    (array i elements).rename ρ = array (ρ.ident i) (elements.map (rename ρ)) := by
  rw [rename, renameAll_eq_map]

/-! ### What a script sees of a value -/

@[simp] theorem type_rename (v : Value) : (v.rename ρ).type = v.type := by
  cases v <;> rfl

@[simp] theorem isSignal_rename (v : Value) : (v.rename ρ).isSignal = v.isSignal := by
  cases v <;> rfl

@[simp] theorem isError_rename (v : Value) : (v.rename ρ).isError = v.isError := by
  cases v <;> rfl

@[simp] theorem isTruthy_rename (v : Value) : (v.rename ρ).isTruthy = v.isTruthy := by
  cases v <;> rfl

theorem unwrapReturn_rename (v : Value) : (v.rename ρ).unwrapReturn = v.unwrapReturn.rename ρ := by
  cases v <;> rfl

theorem object?_rename (v : Value) : (v.rename ρ).object? = v.object?.map (Object.rename ρ) := by
  cases v <;> rfl

mutual

@[simp] theorem inspect_rename (v : Value) : (v.rename ρ).inspect = v.inspect := by
  match v with
  | array i elements => rw [rename, inspect, inspect, inspectAll_renameAll]
  | hash i rows => rw [rename, inspect, inspect, inspectRows_renameRows]
  | returned value => rw [rename, inspect, inspect, inspect_rename]
  | function f | cls c | object o | boundMethod i f o owner => rfl
  | integer n | string s | boolean b | null | builtin b | failed e => rfl

theorem inspectAll_renameAll (vs : List Value) :
    inspectAll (renameAll ρ vs) = inspectAll vs := by
  match vs with
  | [] => rfl
  | v :: rest => rw [renameAll, inspectAll, inspectAll, inspect_rename, inspectAll_renameAll]

theorem inspectRows_renameRows (rows : List (String × Value × Value)) :
    inspectRows (renameRows ρ rows) = inspectRows rows := by
  match rows with
  | [] => rfl
  | (slot, key, value) :: rest =>
      rw [renameRows, inspectRows, inspectRows, inspect_rename, inspect_rename,
        inspectRows_renameRows]

end

/-- A renaming keeps values apart that are not the same. -/
theorem same_rename : ∀ v w : Value, (v.rename ρ).same (w.rename ρ) = v.same w
  | returned v, w => by
      cases w with
      | returned w => exact same_rename v w
      | _ => rfl
  | integer _, w | string _, w | boolean _, w | null, w | array _ _, w | hash _ _, w
  | function _, w | builtin _, w | cls _, w | object _, w | boundMethod _ _ _ _, w
  | failed _, w => by
      cases w <;> simp [rename, same, Closure.rename, Class.rename, ClassBody.rename,
        Object.rename, ρ.ident_beq, ρ.object_beq]

/-! ### Operators -/

/-- A value without any identity, or a runtime error. -/
def IsPlain : Value → Prop
  | integer _ | string _ | boolean _ | null | builtin _ | failed _ => True
  | _ => False

theorem rename_of_isPlain {v : Value} (h : v.IsPlain) : v.rename ρ = v := by
  cases v <;> first | rfl | exact absurd h id

theorem isPlain_unary (op : String) (v : Value) : (Value.unary op v).IsPlain := by
  unfold Value.unary
  split <;> trivial

theorem isPlain_integerBinary (a : Int) (op : String) (b : Int) :
    (integerBinary a op b).IsPlain := by
  unfold integerBinary
  split
  case h_4 => split <;> trivial
  all_goals trivial

theorem isPlain_stringBinary (a : String) (op : String) (b : String) :
    (stringBinary a op b).IsPlain := by
  unfold stringBinary
  split <;> trivial

theorem isPlain_binary (v : Value) (op : String) (w : Value) : (v.binary op w).IsPlain := by
  unfold binary
  split
  · exact isPlain_integerBinary _ _ _
  · exact isPlain_stringBinary _ _ _
  · repeat' split
    all_goals trivial

theorem unary_of_type_ne {op : String} {v : Value} (hop : op ≠ "!") (hv : v.type ≠ .integer) :
    Value.unary op v = .failed (.unknownUnary op v.type) := by
  unfold unary
  split
  · exact absurd rfl hop
  · exact absurd rfl hv
  · rfl

theorem unary_rename (op : String) (v : Value) :
    Value.unary op (v.rename ρ) = Value.unary op v := by
  by_cases hop : op = "!"
  · subst hop
    simp [unary]
  · by_cases hv : v.type = .integer
    · cases v <;> first | rfl | cases hv
    · have hv' : (v.rename ρ).type ≠ .integer := by rwa [type_rename]
      rw [unary_of_type_ne hop hv, unary_of_type_ne hop hv', type_rename]

theorem binary_of_type_ne {v w : Value} (op : String)
    (hinteger : ¬(v.type = .integer ∧ w.type = .integer))
    (hstring : ¬(v.type = .string ∧ w.type = .string)) :
    v.binary op w =
      if v.type ≠ w.type then .failed (.typeMismatch v.type op w.type)
      else if op = "==" then .boolean (v.same w)
      else if op = "!=" then .boolean !v.same w
      else .failed (.unknownBinary v.type op w.type) := by
  unfold binary
  split
  · exact absurd ⟨rfl, rfl⟩ hinteger
  · exact absurd ⟨rfl, rfl⟩ hstring
  · rfl

theorem binary_rename (v : Value) (op : String) (w : Value) :
    (v.rename ρ).binary op (w.rename ρ) = v.binary op w := by
  by_cases hinteger : v.type = .integer ∧ w.type = .integer
  · cases v <;> cases hinteger.1
    cases w <;> cases hinteger.2
    rfl
  · by_cases hstring : v.type = .string ∧ w.type = .string
    · cases v <;> cases hstring.1
      cases w <;> cases hstring.2
      rfl
    · rw [binary_of_type_ne op hinteger hstring]
      rw [← type_rename ρ v, ← type_rename ρ w] at hinteger hstring
      rw [binary_of_type_ne op hinteger hstring, type_rename, type_rename, same_rename]

theorem index_rename (v w : Value) :
    (v.rename ρ).index (w.rename ρ) = (v.index w).rename ρ := by
  cases v with
  | array i elements =>
      rw [rename_array]
      cases w with
      | integer n =>
          simp only [rename, index, List.getElem?_map]
          split
          · cases elements[n.toNat]? <;> rfl
          · rfl
      | _ => rfl
  | hash i rows =>
      have hrows (w : Value) :
          (hash i rows).index w = ((Table.get? rows w.inspect).map Prod.snd).getD .null := by
        cases w <;> rfl
      have hrows' (w : Value) : ((hash i rows).rename ρ).index w =
          ((Table.get? (renameRows ρ rows) w.inspect).map Prod.snd).getD .null := by
        cases w <;> rfl
      rw [hrows, hrows', renameRows_eq_mapContents, Table.get?_mapContents, inspect_rename]
      cases Table.get? rows w.inspect <;> rfl
  | _ => cases w <;> rfl

end Value

/-! ### Nothing renamed -/

@[simp] theorem Closure.rename_id (f : Closure) : f.rename .id = f := rfl

@[simp] theorem ClassBody.rename_id (k : ClassBody) : k.rename .id = k := by
  obtain ⟨ident, name, methods⟩ := k
  simp only [ClassBody.rename, Table.mapContents_id Closure.rename_id]
  rfl

@[simp] theorem Class.rename_id (c : Class) : c.rename .id = c := by
  obtain ⟨own, ancestors⟩ := c
  have hancestors : ancestors.map (ClassBody.rename .id) = ancestors := by
    rw [funext ClassBody.rename_id, List.map_id']
  rw [Class.rename, ClassBody.rename_id, hancestors]

@[simp] theorem Object.rename_id (o : Object) : o.rename .id = o := by
  obtain ⟨ident, c⟩ := o
  rw [Object.rename, Class.rename_id]
  rfl

namespace Value

mutual

@[simp] theorem rename_id (v : Value) : v.rename .id = v := by
  match v with
  | array i elements => rw [rename, renameAll_id]; rfl
  | hash i rows => rw [rename, renameRows_id]; rfl
  | function f => rfl
  | cls c => rw [rename, Class.rename_id]
  | object o => rw [rename, Object.rename_id]
  | boundMethod i f o owner => rw [rename, Object.rename_id, Class.rename_id]; rfl
  | returned value => rw [rename, rename_id]
  | integer n | string s | boolean b | null | builtin b | failed e => rfl

theorem renameAll_id (vs : List Value) : renameAll .id vs = vs := by
  match vs with
  | [] => rfl
  | v :: rest => rw [renameAll, rename_id, renameAll_id]

theorem renameRows_id (rows : List (String × Value × Value)) : renameRows .id rows = rows := by
  match rows with
  | [] => rfl
  | (slot, key, value) :: rest => rw [renameRows, rename_id, rename_id, renameRows_id]

end

end Value

end Scripting
