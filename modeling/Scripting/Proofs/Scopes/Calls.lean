import Scripting.Proofs.Scopes.Lookup

/-!
# Calls on a growing tree of scopes

A tree that starts with one root scope and grows by calls: each call is on a scope that is there
already, and makes a scope inside it, reads a name there, or writes one. What the tree is like then
depends on the calls alone: `Keeps` says which scopes stand where, and that each scope binds a name
to what was last written to it there. `Fulfils` says what the next call answers, and which reads it
changes.
-/

namespace Scripting

/-- A call on one scope of a tree. -/
inductive ScopeCall (α : Type) where
  /-- Makes a scope inside the scope. -/
  | enclosed (scope : Nat)
  | get (scope : Nat) (name : String)
  | set (scope : Nat) (name : String) (a : α)
  | assign (scope : Nat) (name : String) (a : α)
  | owner (scope : Nat) (name : String)
  | contains (scope : Nat) (name : String)

/-- What a call on a scope answers. -/
inductive ScopeAnswer (α : Type) where
  | made (scope : Nat)
  | content (a? : Option α)
  | scope (scope? : Option Nat)
  | holds (yes : Bool)

namespace ScopeCall

variable {α : Type}

/-- The scope that a call is on. -/
def scope : ScopeCall α → Nat
  | .enclosed s => s
  | .get s _ => s
  | .set s _ _ => s
  | .assign s _ _ => s
  | .owner s _ => s
  | .contains s _ => s

/-- The scope around the scope that a call makes, if it makes one. -/
def enclosing? : ScopeCall α → Option Nat
  | .enclosed s => some s
  | _ => none

/-- Calls that are each on a scope that is there by then, when there are `size` scopes at first. -/
def Fit : Nat → List (ScopeCall α) → Prop
  | _, [] => True
  | size, call :: calls => call.scope < size ∧ Fit (size + call.enclosing?.toList.length) calls

end ScopeCall

namespace Scopes

variable {α : Type}

/-! ### Performing calls -/

/-- The answer of a call and the tree after it. -/
def perform (S : Scopes α) : ScopeCall α → ScopeAnswer α × Scopes α
  | .enclosed s => (.made S.size, S.addInside s [])
  | .get s name => (.content (S.get? s name), S)
  | .set s name a => (.content (some a), S.set s name a)
  | .assign s name a =>
      match S.assign? s name a with
      | some T => (.holds true, T)
      | none => (.holds false, S)
  | .owner s name => (.scope (S.owner? s name), S)
  | .contains s name => (.holds (S.contains s name), S)

/-- The tree after some calls. -/
def after (S : Scopes α) (calls : List (ScopeCall α)) : Scopes α :=
  calls.foldl (fun S call => (S.perform call).2) S

/-- What a call writes: the scope, the name and the content. -/
def written? (S : Scopes α) : ScopeCall α → Option (Nat × String × α)
  | .set s name a => some (s, name, a)
  | .assign s name a => (S.owner? s name).map fun o => (o, name, a)
  | _ => none

/-- What some calls write, one after another. -/
def writes (S : Scopes α) : List (ScopeCall α) → List (Nat × String × α)
  | [] => []
  | call :: calls => (S.written? call).toList ++ (S.perform call).2.writes calls

/-- What was last written to a name in a scope. -/
def lastWrite (writes : List (Nat × String × α)) (s : Nat) (name : String) : Option α :=
  writes.reverse.findSome? fun w => if w.1 = s ∧ w.2.1 = name then some w.2.2 else none

theorem lastWrite_append (first second : List (Nat × String × α)) (s : Nat) (name : String) :
    lastWrite (first ++ second) s name = (lastWrite second s name).or (lastWrite first s name) := by
  rw [lastWrite, List.reverse_append, List.findSome?_append, lastWrite, lastWrite]

theorem lastWrite_toList_some (o : Nat) (written : String) (a : α) (s : Nat) (name : String) :
    lastWrite (some (o, written, a)).toList s name =
      if o = s ∧ written = name then some a else none := by
  by_cases h : o = s ∧ written = name <;> simp [lastWrite, h]

/-! ### What one call does to the tree -/

/-- From `S` to `T` the name is written in scope `o`, and every read that does not end in `o` is
left as it was. -/
structure WritesAt (S : Scopes α) (o : Nat) (name : String) (a : α) (T : Scopes α) : Prop where
  size : T.size = S.size
  outer : ∀ t, T.outer? t = S.outer? t
  written : (T.bindings o).get? name = some a
  others : ∀ t other, ¬(t = o ∧ other = name) →
    (T.bindings t).get? other = (S.bindings t).get? other
  reads : ∀ t, T.owner? t name = some o → T.get? t name = some a
  other_reads : ∀ t other, ¬(other = name ∧ T.owner? t name = some o) →
    T.get? t other = S.get? t other

/-- From `S` to `T` a scope without bindings is made inside scope `s`. -/
structure GrowsAt (S : Scopes α) (s : Nat) (T : Scopes α) : Prop where
  size : T.size = S.size + 1
  outer : T.outer? S.size = some s
  bindings : T.bindings S.size = []
  others : ∀ t, t ≠ S.size → T.outer? t = S.outer? t ∧ T.bindings t = S.bindings t
  reads : ∀ name, T.get? S.size name = S.get? s name
  other_reads : ∀ t name, t ≠ S.size → T.get? t name = S.get? t name

/-- What a call has to answer on tree `S`, and what has to become of the tree. -/
def Fulfils (S : Scopes α) : ScopeCall α → ScopeAnswer α → Scopes α → Prop
  | .enclosed s, answer, T => answer = .made S.size ∧ S.GrowsAt s T
  | .get s name, answer, T =>
      answer = .content ((S.owner? s name).bind fun o => (S.bindings o).get? name) ∧ T = S
  | .set s name a, answer, T => answer = .content (some a) ∧ S.WritesAt s name a T
  | .assign s name a, answer, T =>
      (∃ o, S.owner? s name = some o ∧ answer = .holds true ∧ S.WritesAt o name a T ∧
        ∀ t other, T.owner? t other = S.owner? t other) ∨
      S.owner? s name = none ∧ answer = .holds false ∧ T = S
  | .owner s name, answer, T => answer = .scope (S.owner? s name) ∧ T = S
  | .contains s name, answer, T => answer = .holds (S.owner? s name).isSome ∧ T = S

theorem writesAt_set (S : Scopes α) {o : Nat} (ho : o < S.size) (name : String) (a : α) :
    S.WritesAt o name a (S.set o name a) where
  size := S.size_set o name a
  outer := S.outer?_set o name a
  written := by rw [get?_bindings_set, if_pos ⟨⟨rfl, ho⟩, rfl⟩]
  others t other h := by
    rw [get?_bindings_set, if_neg fun h' => h ⟨h'.1.1, h'.2.symm⟩]
  reads _ h := S.get?_set_of_owner? name a ho h
  other_reads t other h := by
    by_cases hother : other = name
    · subst hother
      exact S.get?_set_of_owner?_ne other a ho fun howner => h ⟨rfl, howner⟩
    · exact S.get?_set_of_name_ne name a hother t

theorem growsAt_addInside (S : Scopes α) {s : Nat} (hs : s < S.size) :
    S.GrowsAt s (S.addInside s []) where
  size := S.size_addInside s []
  outer := by rw [outer?_addInside S s [] S.size hs, if_pos rfl]
  bindings := by rw [bindings_addInside, if_pos rfl]
  others t ht := ⟨S.outer?_addInside_of_ne s [] ht, by rw [bindings_addInside, if_neg ht]⟩
  reads name := S.get?_addInside_nil hs name
  other_reads _ name ht := S.get?_addInside_of_ne [] ht name

/-- Every call on a scope of a tree does what it has to. -/
theorem fulfils_perform (S : Scopes α) (call : ScopeCall α) (hcall : call.scope < S.size) :
    S.Fulfils call (S.perform call).1 (S.perform call).2 := by
  cases call with
  | enclosed s => exact ⟨rfl, S.growsAt_addInside hcall⟩
  | get s name => exact ⟨congrArg ScopeAnswer.content (S.get?_eq_owner? s name), rfl⟩
  | set s name a => exact ⟨rfl, S.writesAt_set hcall name a⟩
  | assign s name a =>
      cases ho : S.owner? s name with
      | none =>
          have hperform : S.perform (.assign s name a) = (.holds false, S) := by
            simp [perform, assign?, ho]
          rw [hperform]
          exact .inr ⟨ho, rfl, rfl⟩
      | some o =>
          have hbinds := binds_of_owner? ho
          have hperform : S.perform (.assign s name a) = (.holds true, S.set o name a) := by
            simp [perform, assign?, ho]
          rw [hperform]
          exact .inl ⟨o, ho, rfl, S.writesAt_set (lt_size_of_binds hbinds) name a,
            S.owner?_set_of_binds name a hbinds⟩
  | owner s name => exact ⟨rfl, rfl⟩
  | contains s name => exact ⟨rfl, rfl⟩

/-! ### What calls leave of the tree -/

section Perform

variable (S : Scopes α) {call : ScopeCall α}

/-- A call makes a scope, writes a name, or leaves the tree as it is. -/
theorem perform_cases (hcall : call.scope < S.size) :
    (∃ s, call.enclosing? = some s ∧ S.written? call = none ∧
      S.GrowsAt s (S.perform call).2) ∨
    (∃ o name a, call.enclosing? = none ∧ S.written? call = some (o, name, a) ∧
      S.WritesAt o name a (S.perform call).2) ∨
    (call.enclosing? = none ∧ S.written? call = none ∧ (S.perform call).2 = S) := by
  have hfulfils := S.fulfils_perform call hcall
  cases call with
  | enclosed s => exact .inl ⟨s, rfl, rfl, hfulfils.2⟩
  | set s name a => exact .inr (.inl ⟨s, name, a, rfl, rfl, hfulfils.2⟩)
  | assign s name a =>
      obtain ⟨o, ho, -, hwrites, -⟩ | ⟨ho, -, hsame⟩ := hfulfils
      · exact .inr (.inl ⟨o, name, a, rfl, by rw [written?, ho, Option.map_some], hwrites⟩)
      · exact .inr (.inr ⟨rfl, by rw [written?, ho, Option.map_none], hsame⟩)
  | get s name => exact .inr (.inr ⟨rfl, rfl, rfl⟩)
  | owner s name => exact .inr (.inr ⟨rfl, rfl, rfl⟩)
  | contains s name => exact .inr (.inr ⟨rfl, rfl, rfl⟩)

theorem size_perform (hcall : call.scope < S.size) :
    (S.perform call).2.size = S.size + call.enclosing?.toList.length := by
  obtain ⟨s, hs, -, hgrows⟩ | ⟨o, name, a, hs, -, hwrites⟩ | ⟨hs, -, hsame⟩ :=
    S.perform_cases hcall
  · rw [hs, hgrows.size]
    rfl
  · rw [hs, hwrites.size]
    rfl
  · rw [hs, hsame]
    rfl

/-- A call leaves the scopes where they are, and a new one stands in the scope of the call. -/
theorem outer?_perform (hcall : call.scope < S.size) (t : Nat) :
    (S.perform call).2.outer? t =
      if t < S.size then S.outer? t else call.enclosing?.toList[t - S.size]? := by
  have hstays : S.outer? t =
      if t < S.size then S.outer? t else ([] : List Nat)[t - S.size]? := by
    split
    · rfl
    · next ht => exact outer?_of_size_le (Nat.le_of_not_lt ht)
  obtain ⟨s, hs, -, hgrows⟩ | ⟨o, name, a, hs, -, hwrites⟩ | ⟨hs, -, hsame⟩ :=
    S.perform_cases hcall
  · rw [hs]
    obtain hlt | rfl | hgt := Nat.lt_trichotomy t S.size
    · rw [(hgrows.others t (Nat.ne_of_lt hlt)).1, if_pos hlt]
    · rw [hgrows.outer, if_neg (Nat.lt_irrefl _), Nat.sub_self]
      rfl
    · rw [(hgrows.others t (Nat.ne_of_gt hgt)).1, outer?_of_size_le (Nat.le_of_lt hgt),
        if_neg (Nat.not_lt_of_gt hgt)]
      exact (List.getElem?_eq_none (Nat.sub_pos_of_lt hgt)).symm
  · rw [hs]
    exact (hwrites.outer t).trans hstays
  · rw [hs, hsame]
    exact hstays

/-- A call leaves what the scopes bind, but for what it writes. -/
theorem get?_bindings_perform (hcall : call.scope < S.size) (t : Nat) (name : String) :
    ((S.perform call).2.bindings t).get? name =
      (lastWrite (S.written? call).toList t name).or ((S.bindings t).get? name) := by
  obtain ⟨s, -, hw, hgrows⟩ | ⟨o, written, a, -, hw, hwrites⟩ | ⟨-, hw, hsame⟩ :=
    S.perform_cases hcall
  · rw [hw]
    by_cases ht : t = S.size
    · rw [ht, hgrows.bindings, bindings_of_size_le (Nat.le_refl _)]
      rfl
    · rw [(hgrows.others t ht).2]
      rfl
  · rw [hw, lastWrite_toList_some]
    by_cases ht : o = t ∧ written = name
    · rw [if_pos ht, ← ht.1, ← ht.2, hwrites.written, Option.some_or]
    · rw [if_neg ht, hwrites.others t name fun h => ht ⟨h.1.symm, h.2.symm⟩, Option.none_or]
  · rw [hw, hsame]
    rfl

end Perform

theorem filterMap_enclosing_cons (call : ScopeCall α) (calls : List (ScopeCall α)) :
    (call :: calls).filterMap ScopeCall.enclosing? =
      call.enclosing?.toList ++ calls.filterMap ScopeCall.enclosing? := by
  rw [List.filterMap_cons]
  cases call.enclosing? <;> rfl

section After

variable (S : Scopes α) {calls : List (ScopeCall α)}

theorem size_after (hcalls : ScopeCall.Fit S.size calls) :
    (S.after calls).size = S.size + (calls.filterMap ScopeCall.enclosing?).length := by
  induction calls generalizing S with
  | nil => rfl
  | cons call calls ih =>
      have hsize := S.size_perform hcalls.1
      rw [after, List.foldl_cons, ← after, ih _ (hsize ▸ hcalls.2), hsize, Nat.add_assoc,
        ← List.length_append, filterMap_enclosing_cons]

/-- The scopes that calls make stand in the scopes of those calls, one after another. -/
theorem outer?_after (hcalls : ScopeCall.Fit S.size calls) (t : Nat) :
    (S.after calls).outer? t =
      if t < S.size then S.outer? t
      else (calls.filterMap ScopeCall.enclosing?)[t - S.size]? := by
  induction calls generalizing S with
  | nil =>
      split
      · rfl
      · next ht => exact outer?_of_size_le (Nat.le_of_not_lt ht)
  | cons call calls ih =>
      have hsize := S.size_perform hcalls.1
      rw [after, List.foldl_cons, ← after, ih _ (hsize ▸ hcalls.2), hsize,
        S.outer?_perform hcalls.1, filterMap_enclosing_cons]
      by_cases ht : t < S.size
      · rw [if_pos ht, if_pos ht, if_pos (Nat.lt_add_right _ ht)]
      · obtain ⟨k, rfl⟩ := Nat.exists_eq_add_of_le (Nat.le_of_not_lt ht)
        rw [if_neg ht, if_neg ht, Nat.add_sub_cancel_left, Nat.add_sub_add_left,
          List.getElem?_append]
        simp only [Nat.add_lt_add_iff_left]

/-- A scope binds a name to what calls last wrote there, and else to what it was bound to. -/
theorem get?_bindings_after (hcalls : ScopeCall.Fit S.size calls) (t : Nat) (name : String) :
    ((S.after calls).bindings t).get? name =
      (lastWrite (S.writes calls) t name).or ((S.bindings t).get? name) := by
  induction calls generalizing S with
  | nil => rfl
  | cons call calls ih =>
      rw [after, List.foldl_cons, ← after, ih _ (S.size_perform hcalls.1 ▸ hcalls.2),
        S.get?_bindings_perform hcalls.1, writes, lastWrite_append, Option.or_assoc]

end After

/-! ### The tree that calls make -/

/-- The tree that calls make of a single root scope. -/
def ofCalls (calls : List (ScopeCall α)) : Scopes α :=
  (empty.addRoot).after calls

/-- What the tree made by calls is like: scope `0` is its root, scope `k + 1` stands in the scope
that the `k`th `enclosed` call was on, and a scope binds a name to what was last written to it
there. -/
structure Keeps (calls : List (ScopeCall α)) (S : Scopes α) : Prop where
  size : S.size = 1 + (calls.filterMap ScopeCall.enclosing?).length
  root : S.outer? 0 = none
  inside : ∀ k, S.outer? (k + 1) = (calls.filterMap ScopeCall.enclosing?)[k]?
  bound : ∀ t name, (S.bindings t).get? name = lastWrite ((empty.addRoot).writes calls) t name
  to_root : ∀ s, s < S.size → ∃ k, S.outward s k = some 0

theorem keeps_ofCalls {calls : List (ScopeCall α)} (hcalls : ScopeCall.Fit 1 calls) :
    (ofCalls calls).Keeps calls := by
  have hsize : (ofCalls calls).size = 1 + (calls.filterMap ScopeCall.enclosing?).length :=
    size_after (empty.addRoot) hcalls
  have houter := outer?_after (empty.addRoot) hcalls
  have hinside (k : Nat) :
      (ofCalls calls).outer? (k + 1) = (calls.filterMap ScopeCall.enclosing?)[k]? :=
    houter (k + 1)
  refine ⟨hsize, houter 0, hinside, fun t name => ?_, fun s hs => ?_⟩
  · rw [ofCalls, get?_bindings_after (empty.addRoot) hcalls, bindings_addRoot]
    exact Option.or_none
  · induction s using (ofCalls calls).outer_induction with
    | step s ih =>
        cases s with
        | zero => exact ⟨0, rfl⟩
        | succ k =>
            have hk : k < (calls.filterMap ScopeCall.enclosing?).length := by
              rw [hsize] at hs
              omega
            have ho := (hinside k).trans (List.getElem?_eq_getElem hk)
            obtain ⟨j, hj⟩ := ih _ ho (Nat.lt_trans (outer?_lt ho) hs)
            exact ⟨j + 1, by rw [outward_succ_of_outer? ho, hj]⟩

/-- After any calls, each on a scope that was there by then, the owner of a name in a scope is the
first scope on the way to the root that binds the name, if there is one, and each further call
answers and writes as the owner says. -/
theorem calls_go_through_owners (calls : List (ScopeCall α)) (hcalls : ScopeCall.Fit 1 calls) :
    (ofCalls calls).Keeps calls ∧
      (∀ s name t, (ofCalls calls).owner? s name = some t ↔ (ofCalls calls).Finds s name t) ∧
      (∀ s name, (ofCalls calls).owner? s name = none ↔
        ∀ k t, (ofCalls calls).outward s k = some t → (ofCalls calls).binds t name = false) ∧
      ∀ call : ScopeCall α, call.scope < (ofCalls calls).size →
        (ofCalls calls).Fulfils call ((ofCalls calls).perform call).1
          ((ofCalls calls).perform call).2 :=
  ⟨keeps_ofCalls hcalls, owner?_eq_some_iff _, owner?_eq_none_iff _, fulfils_perform _⟩

/-- A name of the root is shadowed in one of two scopes inside it, and then written from both. -/
def shadowingCalls : List (ScopeCall Nat) :=
  [.set 0 "a" 1, .enclosed 0, .enclosed 1, .enclosed 0, .get 2 "a", .set 1 "a" 2, .assign 2 "a" 3,
    .assign 3 "a" 4, .assign 3 "b" 5]

theorem calls_go_through_owners_of_shadowing :
    ScopeCall.Fit 1 shadowingCalls ∧ (ofCalls shadowingCalls).Keeps shadowingCalls ∧
      (ofCalls shadowingCalls).Fulfils (.get 2 "a")
        ((ofCalls shadowingCalls).perform (.get 2 "a")).1
        ((ofCalls shadowingCalls).perform (.get 2 "a")).2 := by
  have hfit : ScopeCall.Fit 1 shadowingCalls := by
    simp [shadowingCalls, ScopeCall.Fit, ScopeCall.scope, ScopeCall.enclosing?]
  obtain ⟨hkeeps, -, -, hfulfils⟩ := calls_go_through_owners shadowingCalls hfit
  refine ⟨hfit, hkeeps, hfulfils (.get 2 "a") ?_⟩
  rw [hkeeps.size]
  decide

end Scopes

end Scripting
