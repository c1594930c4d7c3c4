import Mathlib.Data.List.Basic
import Scripting.Proofs.Run.Invariant
import Scripting.Proofs.Run.Nodes
import Scripting.Proofs.Run.Pairing

/-!
# Runs with and without copies of methods

An object that a script makes has copies of the methods of its class among its properties, an object
that the host makes has none, and what is read of the latter comes from the class. `Copies` names an
object with some of the methods, and `State.DiffersBy` compares two states in which the object has
copies of them, some or none. Two computations agree (`Copies.Agrees`) if, on states that differ so,
they leave states that do and give results that are paired; what the pairing says of identities that
are given already stays. There is a rule for each way of putting computations together and for each
act.
-/

namespace Scripting

/-- What an object has under a name among its own properties. -/
def State.own? (s : State) (ident : Nat) (name : String) : Option Value :=
  s.properties[ident]?.bind (·.get? name)

/-- The functions that a value has in it, but for those of the values in it. -/
def Value.closures : Value → List Closure
  | function f => [f]
  | cls c => c.closures
  | object o => o.cls.closures
  | boundMethod _ f o owner => f :: (o.cls.closures ++ owner.closures)
  | _ => []

/-- The name of the property that a node reads. The callee of a call is no node. -/
def Part.read? : Part → Option String
  | expr (.property _ name) => some name
  | _ => none

/-- An object with names of methods. -/
structure Copies where
  object : Object
  names : List String

namespace Copies

variable (K : Copies)

/-- Among the nodes no property is read under one of the names, but as the callee of a call. -/
def OnlyCalled (nodes : List Part) : Prop :=
  ∀ n ∈ nodes, ∀ name ∈ n.read?, name ∉ K.names

instance (nodes : List Part) : Decidable (K.OnlyCalled nodes) :=
  inferInstanceAs (Decidable (∀ n ∈ nodes, ∀ name ∈ n.read?, name ∉ K.names))

/-- What the object has under a name in two states: the same, up to the numbers, or in the first
state the function that its own class has under it, if it is one of the names, and nothing in the
second. -/
inductive Entry (ρ : Renaming) (name : String) : Option Value → Option Value → Prop where
  | same {found found' : Option Value} (h : found' = found.map (Value.rename ρ)) :
      Entry ρ name found found'
  | copied {f : Closure} (hname : name ∈ K.names)
      (hf : K.object.cls.own.methods.get? name = some f) : Entry ρ name (some (.function f)) none

end Copies

/-- The states are the same, up to the numbers, but for copies of methods that the object has in
`s` and does not have in `t`. -/
structure State.DiffersBy (K : Copies) (ρ : Renaming) (s t : State) : Prop where
  scopes : t.scopes = s.scopes.map (Value.rename ρ)
  size : t.properties.size = s.properties.size
  others : ∀ i, i ≠ K.object.ident →
    t.properties[i]? = s.properties[i]?.map (Table.mapContents (Value.rename ρ))
  entries : ∀ name, K.Entry ρ name (s.own? K.object.ident name) (t.own? K.object.ident name)
  output : t.output = s.output

namespace Copies

variable {α β γ δ : Type} {K : Copies} {a b : Pairing}

/-- A pairing goes with two states: its registry is one of the first, knows the object and functions
only that read the methods as callees, and from the next identities on it pairs the identities one
by one. -/
structure States (K : Copies) (a : Pairing) (s t : State) : Prop where
  fits : a.registry.Fits s
  object : a.registry.object K.object.ident = some K.object.cls
  onlyCalled : ∀ {i f}, a.registry.value i = some (.function f) →
    K.OnlyCalled (Block.nodes f.body)
  differs : s.DiffersBy K a.toRenaming t
  nextIdent : ∀ k, a.ident (s.nextIdent + k) = t.nextIdent + k

/-- From states with a pairing two computations lead to states with a later one, and both give
results with `Q` or both none. -/
def Agrees (K : Copies) (a : Pairing) (Q : Pairing → α → β → Prop) (x : Eval α) (y : Eval β) :
    Prop :=
  ∀ s t, K.States a s t → ∃ b, a.Later b ∧ K.States b (x.runOn s).2 (y.runOn t).2 ∧
    Option.Rel (Q b) (x.runOn s).1 (y.runOn t).1

namespace Agrees

variable {Q : Pairing → α → β → Prop} {Q' : Pairing → γ → δ → Prop} {x : Eval α} {y : Eval β}

theorem pure {v : α} {v' : β} (h : Q a v v') : K.Agrees a Q (pure v) (pure v') :=
  fun _ _ hs => ⟨a, .refl a, hs, .some h⟩

theorem tooDeep : K.Agrees a Q Eval.tooDeep Eval.tooDeep :=
  fun _ _ hs => ⟨a, .refl a, hs, .none⟩

theorem act {f : State → α × State} {g : State → β × State}
    (h : ∀ s t, K.States a s t → ∃ b, a.Later b ∧ K.States b (f s).2 (g t).2 ∧
      Q b (f s).1 (g t).1) : K.Agrees a Q (Eval.act f) (Eval.act g) := by
  intro s t hs
  obtain ⟨b, hb, hst, hQ⟩ := h s t hs
  exact ⟨b, hb, hst, .some hQ⟩

/-- What comes second runs with the pairing that the first left. -/
theorem bind {f : α → Eval γ} {g : β → Eval δ} (hx : K.Agrees a Q x y)
    (hf : ∀ b v v', a.Later b → Q b v v' → K.Agrees b Q' (f v) (g v')) :
    K.Agrees a Q' (x >>= f) (y >>= g) := by
  intro s t hs
  obtain ⟨r, u, hu⟩ : ∃ r u, x.runOn s = (r, u) := ⟨_, _, rfl⟩
  obtain ⟨r', u', hu'⟩ : ∃ r' u', y.runOn t = (r', u') := ⟨_, _, rfl⟩
  obtain ⟨b, hb, hst, hrel⟩ := hx s t hs
  rw [Eval.runOn_bind, Eval.runOn_bind, hu, hu']
  rw [hu, hu'] at hst hrel
  cases hrel with
  | none => exact ⟨b, hb, hst, .none⟩
  | some hv =>
      obtain ⟨c, hc, hst', hrel'⟩ := hf b _ _ hb hv u u' hst
      exact ⟨c, hb.trans hc, hst', hrel'⟩

theorem mono {Q₁ : Pairing → α → β → Prop} (h : K.Agrees a Q x y)
    (hQ : ∀ b v v', a.Later b → Q b v v' → Q₁ b v v') : K.Agrees a Q₁ x y := by
  intro s t hs
  obtain ⟨b, hb, hst, hrel⟩ := h s t hs
  refine ⟨b, hb, hst, ?_⟩
  generalize (x.runOn s).1 = r at hrel ⊢
  generalize (y.runOn t).1 = r' at hrel ⊢
  cases hrel with
  | none => exact .none
  | some hv => exact .some (hQ b _ _ hb hv)

/-- Results one after another, where those of the second computation are images of those of the
first and stay so in later pairings. -/
theorem mapM {P : Pairing → α → Prop} {image : Pairing → α → β} {f : γ → Eval α} {g : γ → Eval β}
    (cs : List γ)
    (hf : ∀ c ∈ cs, ∀ b, K.Agrees b (fun d v v' => P d v ∧ v' = image d v) (f c) (g c))
    (hlater : ∀ {b c v}, b.Later c → P b v → P c v ∧ image c v = image b v) :
    K.Agrees a (fun b vs vs' => (∀ v ∈ vs, P b v) ∧ vs' = vs.map (image b)) (cs.mapM f)
      (cs.mapM g) := by
  induction cs generalizing a with
  | nil =>
      rw [List.mapM_nil, List.mapM_nil]
      exact .pure ⟨fun v hv => absurd hv List.not_mem_nil, rfl⟩
  | cons c cs ih =>
      rw [List.mapM_cons, List.mapM_cons]
      refine (hf c List.mem_cons_self a).bind ?_
      rintro b v _ hb ⟨hv, rfl⟩
      refine (ih fun c hc => hf c (List.mem_cons_of_mem _ hc)).bind ?_
      rintro d vs _ hd ⟨hvs, rfl⟩
      obtain ⟨hv', himage⟩ := hlater hd hv
      exact .pure ⟨List.forall_mem_cons.mpr ⟨hv', hvs⟩, by rw [List.map_cons, himage]⟩

theorem forM {ε : Type} {f : γ → Eval Unit} {g : ε → Eval Unit} {image : γ → ε}
    (h : ∀ c b, K.Agrees b (fun _ _ _ => True) (f c) (g (image c))) (cs : List γ) :
    K.Agrees a (fun _ _ _ => True) (cs.forM f) ((cs.map image).forM g) := by
  induction cs generalizing a with
  | nil => exact .pure trivial
  | cons c cs ih => exact (h c a).bind fun _ _ _ _ _ => ih

/-- A signal is the result of both computations at once. -/
theorem onValue {P : Pairing → Value → Value → Prop} {x y : Eval Value} {f g : Value → Eval Value}
    (hx : K.Agrees a P x y) (hsignal : ∀ b v v', P b v v' → v'.isSignal = v.isSignal)
    (hgiven : ∀ b v v', P b v v' → v.isSignal = true → b.Values v v')
    (hf : ∀ b v v', a.Later b → P b v v' → K.Agrees b Pairing.Values (f v) (g v')) :
    K.Agrees a Pairing.Values (x.onValue f) (y.onValue g) := by
  refine hx.bind fun b v v' hb hv => ?_
  rw [hsignal b v v' hv]
  split
  · next hsignal => exact .pure (hgiven b v v' hv hsignal)
  · exact hf b v v' hb hv

end Agrees

theorem Entry.later {name : String} {found found' : Option Value}
    (h : K.Entry a.toRenaming name found found')
    (hfound : ∀ v, found = some v → a.registry.Knows v) (hb : a.Later b) :
    K.Entry b.toRenaming name found found' := by
  cases h with
  | copied hname hf => exact .copied hname hf
  | same h =>
      refine .same (h.trans ?_)
      cases found with
      | none => rfl
      | some v => exact congrArg some (hb.rename (hfound v rfl)).symm

end Copies

/-- What an object has of its own after one of its properties was written. -/
theorem State.own?_setProperty (s : State) {i : Nat} (hi : i < s.properties.size) (name : String)
    (v : Value) (j : Nat) (other : String) :
    State.own? { s with properties := s.properties.modify i (·.set name v) } j other =
      if i = j ∧ name = other then some v else s.own? j other := by
  unfold own?
  rw [Array.getElem?_modify]
  by_cases hj : i = j
  · subst hj
    rw [if_pos rfl, Array.getElem?_eq_getElem hi]
    simp [Table.get?_set]
  · simp [hj]

theorem State.own?_pushProperties {s : State} {j : Nat} (hj : j < s.properties.size)
    (table : Table Value) (name : String) :
    State.own? { s with properties := s.properties.push table } j name = s.own? j name := by
  unfold own?
  rw [Array.getElem?_push_lt hj, Array.getElem?_eq_getElem hj]

namespace State.DiffersBy

variable {K : Copies} {ρ : Renaming} {a b : Pairing} {s t : State}

/-- A later pairing tells the same difference. -/
theorem later (h : s.DiffersBy K a.toRenaming t) (hs : s.Stores a.registry.Knows)
    (hb : a.Later b) : s.DiffersBy K b.toRenaming t where
  scopes := h.scopes.trans (Scopes.map_congr fun i => (hs.bindings i).mono fun _ hv =>
    (hb.rename hv).symm)
  size := h.size
  others i hi := by
    rw [h.others i hi]
    cases htable : s.properties[i]? with
    | none => rfl
    | some table =>
        obtain ⟨hlt, rfl⟩ := Array.getElem?_eq_some_iff.mp htable
        exact congrArg some (hb.mapContents_rename (hs.properties i hlt)).symm
  entries name := (h.entries name).later (fun _ hv => hs.property hv) hb
  output := h.output

theorem withScopes (h : s.DiffersBy K ρ t) (S : Scopes Value) :
    DiffersBy K ρ { s with scopes := S } { t with scopes := S.map (Value.rename ρ) } :=
  ⟨rfl, h.size, h.others, h.entries, h.output⟩

/-- A new object has the same properties in both states. -/
theorem pushProperties (h : s.DiffersBy K ρ t) (hobject : K.object.ident < s.properties.size)
    (table : Table Value) :
    DiffersBy K ρ { s with properties := s.properties.push table }
      { t with properties := t.properties.push (table.mapContents (Value.rename ρ)) } where
  scopes := h.scopes
  size := by simp [h.size]
  others i hi := by
    rw [Array.getElem?_push, Array.getElem?_push, h.size, h.others i hi]
    split <;> rfl
  entries name := by
    rw [own?_pushProperties hobject, own?_pushProperties (h.size ▸ hobject)]
    exact h.entries name
  output := h.output

/-- A property that is written is the same in both states. -/
theorem setProperty (h : s.DiffersBy K ρ t) (hobject : K.object.ident < s.properties.size)
    (i : Nat) (name : String) (v : Value) :
    DiffersBy K ρ { s with properties := s.properties.modify i (·.set name v) }
      { t with properties := t.properties.modify i (·.set name (v.rename ρ)) } where
  scopes := h.scopes
  size := by simp [h.size]
  others j hj := by
    rw [Array.getElem?_modify, Array.getElem?_modify, h.others j hj]
    split
    · cases s.properties[j]? with
      | none => rfl
      | some table => exact congrArg some (Table.set_mapContents _ table name v)
    · rfl
  entries other := by
    by_cases hi : i = K.object.ident
    · subst hi
      rw [own?_setProperty s hobject, own?_setProperty t (h.size ▸ hobject)]
      by_cases hname : name = other
      · rw [if_pos ⟨rfl, hname⟩, if_pos ⟨rfl, hname⟩]
        exact .same rfl
      · rw [if_neg fun h => hname h.2, if_neg fun h => hname h.2]
        exact h.entries other
    · have hother (u : State) (w : Value) :
          State.own? { u with properties := u.properties.modify i (·.set name w) }
            K.object.ident other = u.own? K.object.ident other := by
        unfold own?
        rw [Array.getElem?_modify, if_neg hi]
      rw [hother, hother]
      exact h.entries other
  output := h.output

end State.DiffersBy

end Scripting
