import Scripting.Proofs.Run.Registry
import Scripting.Proofs.Scopes.Map

/-!
# Pairings of identities

Two runs that do the same need not give the same identities: one of them may use up identities for
values that nobody sees. A pairing keeps track of the first run by a registry and says which
identity the second gave where the first gave one. It changes along the runs, but what it says of
identities that are given stays, so values that correspond once correspond ever after
(`Pairing.Values.later`).
-/

namespace Scripting

namespace Registry

/-- Two renamings differ at most on identities that are not given. -/
structure RenamesAlike (w : Registry) (ρ ρ' : Renaming) : Prop where
  scope : ρ.scope = ρ'.scope
  object : ρ.object = ρ'.object
  ident : ∀ {i v}, w.value i = some v → ρ.ident i = ρ'.ident i

namespace RenamesAlike

variable {w : Registry} {ρ ρ' : Renaming} (h : w.RenamesAlike ρ ρ')
include h

theorem closure {f : Closure} (hf : w.KnowsClosure f) : f.rename ρ = f.rename ρ' := by
  rw [Closure.rename, Closure.rename, h.scope, h.ident hf]

theorem cls {c : Class} (hc : w.KnowsClass c) : c.rename ρ = c.rename ρ' := by
  obtain ⟨own, ancestors⟩ := c
  have hbody {k : ClassBody} {c : Class} (hident : w.value k.ident = some (.cls c))
      (hmethods : k.methods.All w.KnowsClosure) : k.rename ρ = k.rename ρ' := by
    rw [ClassBody.rename, ClassBody.rename, h.ident hident,
      Table.mapContents_congr (hmethods.mono fun _ => h.closure)]
  obtain ⟨hident, hmethods⟩ := hc _ (Class.mem_lineage_self _)
  induction ancestors generalizing own with
  | nil => rw [Class.rename, Class.rename, hbody hident hmethods]; rfl
  | cons parent rest ih =>
      have hparent : w.KnowsClass ⟨parent, rest⟩ :=
        knowsClass_of_mem hc (Class.superclass?_mem_lineage rfl)
      obtain ⟨hident', hmethods'⟩ := hparent _ (Class.mem_lineage_self _)
      obtain ⟨hown, hrest⟩ := Class.mk.inj (ih parent hparent hident' hmethods')
      rw [Class.rename, Class.rename, hbody hident hmethods, List.map_cons, List.map_cons, hown,
        hrest]

/-- What a class inherits from is renamed alike. -/
theorem ancestors {bodies : List ClassBody}
    (hbodies : bodies = [] ∨ ∃ c : Class, w.KnowsClass c ∧ bodies = c.own :: c.ancestors) :
    bodies.map (ClassBody.rename ρ) = bodies.map (ClassBody.rename ρ') := by
  rcases hbodies with rfl | ⟨c, hc, rfl⟩
  · rfl
  · obtain ⟨hown, hrest⟩ := Class.mk.inj (h.cls hc)
    rw [List.map_cons, List.map_cons, hown, hrest]

theorem obj {o : Object} (ho : w.KnowsObject o) : o.rename ρ = o.rename ρ' := by
  rw [Object.rename, Object.rename, h.object, h.cls ho.2]

omit h

mutual

/-- A known value is renamed alike. -/
theorem value (h : w.RenamesAlike ρ ρ') (v : Value) (hv : v.Everywhere w.KnowsAt) :
    v.rename ρ = v.rename ρ' := by
  match v, hv with
  | .array i elements, hv =>
      rw [Value.Everywhere] at hv
      rw [Value.rename, Value.rename, h.ident hv.1, h.values elements hv.2]
  | .hash i rows, hv =>
      rw [Value.Everywhere] at hv
      rw [Value.rename, Value.rename, h.ident hv.1, h.contents rows hv.2]
  | .function f, hv => exact congrArg Value.function (h.closure hv.head)
  | .cls c, hv => exact congrArg Value.cls (h.cls hv.head)
  | .object o, hv => exact congrArg Value.object (h.obj hv.head)
  | .boundMethod i f o owner, hv =>
      obtain ⟨hi, hf, ho, howner⟩ := hv.head
      rw [Value.rename, Value.rename, h.ident hi, h.closure hf, h.obj ho, h.cls howner]
  | .returned v, hv =>
      rw [Value.Everywhere] at hv
      rw [Value.rename, Value.rename, h.value v hv.2]
  | .integer n, _ | .string s, _ | .boolean b, _ | .null, _ | .builtin b, _ | .failed e, _ => rfl

theorem values (h : w.RenamesAlike ρ ρ') (vs : List Value) (hvs : Value.EverywhereIn w.KnowsAt vs) :
    Value.renameAll ρ vs = Value.renameAll ρ' vs := by
  match vs, hvs with
  | [], _ => rfl
  | v :: rest, hvs =>
      rw [Value.renameAll, Value.renameAll, h.value v hvs.1, h.values rest hvs.2]

theorem contents (h : w.RenamesAlike ρ ρ') (rows : List (String × Value × Value))
    (hrows : Value.EverywhereInRows w.KnowsAt rows) :
    Value.renameRows ρ rows = Value.renameRows ρ' rows := by
  match rows, hrows with
  | [], _ => rfl
  | (_, key, content) :: rest, hrows =>
      rw [Value.renameRows, Value.renameRows, h.value key hrows.1, h.value content hrows.2.1,
        h.contents rest hrows.2.2]

end

end RenamesAlike

end Registry

/-- A registry of the first of two runs, and the identity that the second run gave or will give in
the place of each one of the first. -/
structure Pairing where
  registry : Registry
  ident : Nat → Nat
  ident_lt : ∀ {i j}, i < j → ident i < ident j

namespace Pairing

/-- The renaming of a pairing. Scopes and objects have the same numbers in both runs. -/
def toRenaming (a : Pairing) : Renaming where
  scope i := i
  object i := i
  ident := a.ident
  object_injective _ _ h := h
  ident_injective i j h := by
    rcases Nat.lt_trichotomy i j with hlt | heq | hlt
    · exact absurd h (Nat.ne_of_lt (a.ident_lt hlt))
    · exact heq
    · exact absurd h.symm (Nat.ne_of_lt (a.ident_lt hlt))

/-- What is given stays given, and is paired as before. -/
structure Later (a b : Pairing) : Prop where
  registry : a.registry.Extends b.registry
  ident : ∀ {i v}, a.registry.value i = some v → b.ident i = a.ident i

variable {a b c : Pairing}

theorem Later.refl (a : Pairing) : a.Later a :=
  ⟨.refl _, fun _ => rfl⟩

theorem Later.trans (h : a.Later b) (h' : b.Later c) : a.Later c :=
  ⟨h.registry.trans h'.registry, fun hv => (h'.ident (h.registry.value hv)).trans (h.ident hv)⟩

theorem Later.renamesAlike (h : a.Later b) : a.registry.RenamesAlike b.toRenaming a.toRenaming :=
  ⟨rfl, rfl, h.ident⟩

/-- A known value of the first run and that of the second in its place. -/
def Values (a : Pairing) (v v' : Value) : Prop :=
  a.registry.Knows v ∧ v' = v.rename a.toRenaming

theorem values_of_isPlain {v : Value} (h : v.IsPlain) : a.Values v v :=
  ⟨Registry.knows_of_isPlain h, (Value.rename_of_isPlain _ h).symm⟩

/-- A known value has the same counterpart later. -/
theorem Later.rename (h : a.Later b) {v : Value} (hv : a.registry.Knows v) :
    v.rename b.toRenaming = v.rename a.toRenaming :=
  h.renamesAlike.value v hv

theorem Values.later {v v' : Value} (hv : a.Values v v') (h : a.Later b) : b.Values v v' :=
  ⟨hv.1.mono h.registry, hv.2.trans (h.rename hv.1).symm⟩

theorem Later.map_rename (h : a.Later b) {vs : List Value} (hvs : ∀ v ∈ vs, a.registry.Knows v) :
    vs.map (Value.rename b.toRenaming) = vs.map (Value.rename a.toRenaming) :=
  List.map_congr_left fun v hv => h.rename (hvs v hv)

theorem Later.mapContents_rename (h : a.Later b) {table : Table Value}
    (htable : table.All a.registry.Knows) :
    table.mapContents (Value.rename b.toRenaming) = table.mapContents (Value.rename a.toRenaming) :=
  Table.mapContents_congr (htable.mono fun _ => h.rename)

/-! ### How a pairing changes -/

/-- The first run gives an identity, and the second run the one that it is paired with. -/
def give (a : Pairing) (i : Nat) (v : Value) : Pairing :=
  { a with registry := a.registry.give i v }

/-- The first run makes an object, and so does the second. -/
def giveObject (a : Pairing) (i : Nat) (c : Class) : Pairing :=
  { a with registry := a.registry.giveObject i c }

/-- The second run uses up an identity and is one further on from there. -/
def skip (a : Pairing) (n : Nat) : Pairing where
  registry := a.registry
  ident i := if i < n then a.ident i else a.ident i + 1
  ident_lt {i j} h := by
    have hlt := a.ident_lt h
    split <;> split <;> omega

theorem later_give {i : Nat} (h : a.registry.value i = none) (v : Value) : a.Later (a.give i v) :=
  ⟨Registry.extends_give h v, fun _ => rfl⟩

theorem later_giveObject {i : Nat} (h : a.registry.object i = none) (c : Class) :
    a.Later (a.giveObject i c) :=
  ⟨Registry.extends_giveObject h c, fun _ => rfl⟩

theorem later_skip {n : Nat} (h : ∀ i, n ≤ i → a.registry.value i = none) : a.Later (a.skip n) where
  registry := .refl _
  ident {i v} hv := by
    have hlt : i < n := Nat.lt_of_not_le fun hle => by cases (h i hle).symm.trans hv
    exact if_pos hlt

end Pairing

end Scripting
