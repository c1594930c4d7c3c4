import Scripting.Scopes

/-!
# Looking names up in nested scopes

Whoever looks a name up in a scope starts there and goes outwards until a scope binds the name
itself. `outward` is that walk, one scope at a time. The owner of a name is where it ends, and what
the name stands for is what its owner binds it to.

Two trees whose scopes stand at the same places differ for a name only where the walk meets a scope
that they bind differently.
-/

namespace Scripting

namespace Scopes

variable {α : Type}

/-! ### The place of a scope -/

theorem outer?_lt {S : Scopes α} {i o : Nat} (h : S.outer? i = some o) : o < i := by
  obtain ⟨scope, hscope, ho⟩ := Option.bind_eq_some_iff.mp h
  obtain ⟨hi, rfl⟩ := Array.getElem?_eq_some_iff.mp hscope
  exact S.outer_lt i hi o ho

theorem outer?_of_size_le {S : Scopes α} {i : Nat} (h : S.size ≤ i) : S.outer? i = none := by
  unfold outer?
  rw [Array.getElem?_eq_none h]
  rfl

theorem lt_size_of_outer? {S : Scopes α} {i o : Nat} (h : S.outer? i = some o) : i < S.size := by
  refine Nat.lt_of_not_le fun hle => ?_
  rw [outer?_of_size_le hle] at h
  cases h

/-- A new root scope stands in no other, and the other scopes stay where they are. -/
theorem outer?_addRoot (S : Scopes α) (i : Nat) : S.addRoot.outer? i = S.outer? i := by
  unfold outer? addRoot
  rw [Array.getElem?_push]
  by_cases hi : i = S.scopes.size <;> simp [hi]

/-- A new scope stands in the scope it was made in, if there is such a scope. -/
theorem outer?_addInside_eq (S : Scopes α) (s : Nat) (table : Table α) (t : Nat) :
    (S.addInside s table).outer? t =
      if t = S.size then (if s < S.size then some s else none) else S.outer? t := by
  unfold outer? addInside size
  rw [Array.getElem?_push]
  by_cases ht : t = S.scopes.size <;> simp [ht]

theorem outer?_addInside_of_ne (S : Scopes α) (s : Nat) (table : Table α) {t : Nat}
    (ht : t ≠ S.size) : (S.addInside s table).outer? t = S.outer? t := by
  rw [outer?_addInside_eq, if_neg ht]

/-- A property of scopes that each scope has if the scope around it has it, if there is one. -/
@[elab_as_elim]
theorem outer_induction (S : Scopes α) {motive : Nat → Prop}
    (step : ∀ s, (∀ o, S.outer? s = some o → motive o) → motive s) (s : Nat) : motive s := by
  induction s using Nat.strongRecOn with
  | ind s ih => exact step s fun o ho => ih o (outer?_lt ho)

/-! ### What a scope binds itself -/

theorem bindings_of_size_le {S : Scopes α} {i : Nat} (h : S.size ≤ i) : S.bindings i = [] := by
  unfold bindings
  rw [Array.getElem?_eq_none h]

theorem binds_iff {S : Scopes α} {s : Nat} {name : String} :
    S.binds s name = true ↔ ∃ a, (S.bindings s).get? name = some a :=
  Option.isSome_iff_exists

theorem not_binds_iff {S : Scopes α} {s : Nat} {name : String} :
    ¬S.binds s name = true ↔ (S.bindings s).get? name = none := by
  rw [binds, Bool.not_eq_true, Option.isSome_eq_false_iff, Option.isNone_iff_eq_none]

/-- What is no scope binds nothing. -/
theorem lt_size_of_binds {S : Scopes α} {s : Nat} {name : String} (h : S.binds s name = true) :
    s < S.size := by
  refine Nat.lt_of_not_le fun hle => ?_
  rw [binds, bindings_of_size_le hle] at h
  cases h

theorem binds_addInside_of_ne (S : Scopes α) (s : Nat) (table : Table α) {t : Nat}
    (ht : t ≠ S.size) (name : String) :
    (S.addInside s table).binds t name = S.binds t name := by
  rw [binds, bindings_addInside, if_neg ht, binds]

/-- Binding a name in a scope changes what that scope binds that name to, and nothing else. -/
theorem get?_bindings_set (S : Scopes α) (s : Nat) (name : String) (a : α) (t : Nat)
    (other : String) :
    ((S.set s name a).bindings t).get? other =
      if (t = s ∧ s < S.size) ∧ name = other then some a else (S.bindings t).get? other := by
  rw [bindings_set]
  by_cases ht : t = s ∧ s < S.size
  · rw [if_pos ht, Table.get?_set, ← ht.1]
    simp only [ht, true_and]
  · simp only [ht, false_and, if_false]

/-- Binding a name in a scope adds that name there and no other, nowhere else. -/
theorem binds_set (S : Scopes α) (s : Nat) (name : String) (a : α) (t : Nat) (other : String) :
    (S.set s name a).binds t other = true ↔
      S.binds t other = true ∨ t = s ∧ s < S.size ∧ name = other := by
  rw [binds, get?_bindings_set, binds]
  split
  · next h => exact iff_of_true rfl (.inr ⟨h.1.1, h.1.2, h.2⟩)
  · next h => exact (or_iff_left fun h' => h ⟨⟨h'.1, h'.2.1⟩, h'.2.2⟩).symm

/-- A tree of scopes is known from the bindings and the place of each scope. -/
theorem ext_bindings {S T : Scopes α} (hsize : S.size = T.size)
    (hbindings : ∀ i, S.bindings i = T.bindings i) (houter : ∀ i, S.outer? i = T.outer? i) :
    S = T := by
  obtain ⟨S, hS⟩ := S
  obtain ⟨T, hT⟩ := T
  have heq : S = T := by
    refine Array.ext hsize fun i hi hi' => ?_
    have hb := hbindings i
    have ho := houter i
    simp only [bindings, outer?, Array.getElem?_eq_getElem hi, Array.getElem?_eq_getElem hi',
      Option.bind_some] at hb ho
    cases hs : S[i]
    cases ht : T[i]
    rw [hs, ht] at hb ho
    simp only at hb ho
    rw [hb, ho]
  subst heq
  rfl

/-! ### The walk outwards -/

/-- The scope that lies `k` scopes outwards of a scope. -/
def outward (S : Scopes α) (s : Nat) : Nat → Option Nat
  | 0 => some s
  | k + 1 => (S.outer? s).bind (S.outward · k)

theorem outward_succ (S : Scopes α) (s k : Nat) :
    S.outward s (k + 1) = (S.outer? s).bind (S.outward · k) := rfl

/-- Scope `t` is the first one outwards of `s` that binds the name. -/
def Finds (S : Scopes α) (s : Nat) (name : String) (t : Nat) : Prop :=
  ∃ k, S.outward s k = some t ∧ S.binds t name = true ∧
    ∀ j < k, ∀ u, S.outward s j = some u → S.binds u name = false

theorem outward_succ_of_outer? {S : Scopes α} {s o : Nat} (h : S.outer? s = some o) (k : Nat) :
    S.outward s (k + 1) = S.outward o k := by
  rw [outward_succ, h, Option.bind_some]

/-- Outwards of a scope lie the scope itself and what lies outwards of the scope around it. -/
theorem forall_outward_iff (S : Scopes α) (s : Nat) (p : Nat → Prop) :
    (∀ k t, S.outward s k = some t → p t) ↔
      p s ∧ ∀ o, S.outer? s = some o → ∀ k t, S.outward o k = some t → p t := by
  constructor
  · intro h
    refine ⟨h 0 s rfl, fun o ho k t ht => h (k + 1) t ?_⟩
    rw [outward_succ_of_outer? ho, ht]
  · rintro ⟨hs, houter⟩ k t ht
    cases k with
    | zero => cases ht; exact hs
    | succ k =>
        obtain ⟨o, ho, hot⟩ := Option.bind_eq_some_iff.mp ht
        exact houter o ho k t hot

theorem finds_of_binds {S : Scopes α} {s : Nat} {name : String} (h : S.binds s name = true)
    (t : Nat) : S.Finds s name t ↔ s = t := by
  constructor
  · rintro ⟨k, hk, -, hbefore⟩
    cases k with
    | zero => exact Option.some.inj hk
    | succ k =>
        rw [hbefore 0 (Nat.succ_pos k) s rfl] at h
        cases h
  · rintro rfl
    exact ⟨0, rfl, h, fun j hj => absurd hj (Nat.not_lt_zero j)⟩

theorem finds_of_not_binds {S : Scopes α} {s : Nat} {name : String}
    (h : ¬S.binds s name = true) (t : Nat) :
    S.Finds s name t ↔ ∃ o, S.outer? s = some o ∧ S.Finds o name t := by
  constructor
  · rintro ⟨k, hk, ht, hbefore⟩
    cases k with
    | zero => cases hk; exact absurd ht h
    | succ k =>
        obtain ⟨o, ho, hot⟩ := Option.bind_eq_some_iff.mp hk
        refine ⟨o, ho, k, hot, ht, fun j hj u hu => ?_⟩
        exact hbefore (j + 1) (Nat.succ_lt_succ hj) u (by rw [outward_succ_of_outer? ho, hu])
  · rintro ⟨o, ho, k, hk, ht, hbefore⟩
    refine ⟨k + 1, by rw [outward_succ_of_outer? ho, hk], ht, fun j hj u hu => ?_⟩
    cases j with
    | zero => cases hu; exact Bool.eq_false_iff.mpr h
    | succ j =>
        rw [outward_succ_of_outer? ho] at hu
        exact hbefore j (Nat.lt_of_succ_lt_succ hj) u hu

theorem le_of_mem_chain {S : Scopes α} {s i : Nat} (h : i ∈ S.chain s) : i ≤ s := by
  induction s using S.outer_induction with
  | step s ih =>
      rw [chain_eq] at h
      split at h
      · split at h
        · exact Nat.le_of_eq (List.mem_singleton.mp h)
        · next o ho =>
            rcases List.mem_cons.mp h with rfl | h
            · exact Nat.le_refl _
            · exact Nat.le_of_lt (Nat.lt_of_le_of_lt (ih o ho h) (outer?_lt ho))
      · cases h

/-- A chain of scopes goes from newer to older ones. -/
theorem pairwise_chain (S : Scopes α) (s : Nat) : (S.chain s).Pairwise (· > ·) := by
  induction s using S.outer_induction with
  | step s ih =>
      rw [chain_eq]
      split
      · split
        · exact List.pairwise_singleton _ _
        · next o ho =>
            refine List.pairwise_cons.mpr ⟨fun i hi => ?_, ih o ho⟩
            exact Nat.lt_of_le_of_lt (le_of_mem_chain hi) (outer?_lt ho)
      · exact .nil

/-! ### Owners and what they bind -/

/-- The owner of a name is the scope itself if it binds the name, and else the owner in the scope
around it. -/
theorem owner?_eq (S : Scopes α) (s : Nat) (name : String) :
    S.owner? s name =
      if S.binds s name = true then some s else (S.outer? s).bind (S.owner? · name) := by
  unfold owner?
  rw [chain_eq]
  by_cases hs : s < S.size
  · rw [if_pos hs]
    cases S.outer? s with
    | none => cases hb : S.binds s name <;> simp [hb]
    | some o => cases hb : S.binds s name <;> simp [hb]
  · have hle := Nat.le_of_not_lt hs
    rw [if_neg hs, outer?_of_size_le hle, if_neg (mt lt_size_of_binds hs)]
    rfl

/-- What a name stands for is what the scope itself binds it to, and else what it stands for in the
scope around it. -/
theorem get?_eq (S : Scopes α) (s : Nat) (name : String) :
    S.get? s name =
      ((S.bindings s).get? name).or ((S.outer? s).bind (S.get? · name)) := by
  unfold get?
  rw [chain_eq]
  by_cases hs : s < S.size
  · rw [if_pos hs]
    cases S.outer? s with
    | none => cases h : (S.bindings s).get? name <;> simp [h]
    | some o => cases h : (S.bindings s).get? name <;> simp [h]
  · have hle := Nat.le_of_not_lt hs
    rw [if_neg hs, outer?_of_size_le hle, bindings_of_size_le hle]
    rfl

/-- Looking a name up is finding its owner and reading it there. -/
theorem get?_eq_owner? (S : Scopes α) (s : Nat) (name : String) :
    S.get? s name = (S.owner? s name).bind fun o => (S.bindings o).get? name := by
  induction s using S.outer_induction with
  | step s ih =>
      rw [get?_eq, owner?_eq]
      by_cases hb : S.binds s name = true
      · obtain ⟨a, ha⟩ := binds_iff.mp hb
        rw [if_pos hb, ha, Option.bind_some, ha, Option.some_or]
      · rw [if_neg hb, not_binds_iff.mp hb, Option.none_or]
        cases ho : S.outer? s with
        | none => rfl
        | some o => exact ih o ho

/-- The owner of a name is the first scope outwards that binds it. -/
theorem owner?_eq_some_iff (S : Scopes α) (s : Nat) (name : String) (t : Nat) :
    S.owner? s name = some t ↔ S.Finds s name t := by
  induction s using S.outer_induction with
  | step s ih =>
      rw [owner?_eq]
      by_cases hb : S.binds s name = true
      · rw [if_pos hb, finds_of_binds hb, Option.some_inj]
      · rw [if_neg hb, finds_of_not_binds hb, Option.bind_eq_some_iff]
        exact exists_congr fun o => and_congr_right fun ho => ih o ho

/-- A name has no owner exactly when no scope outwards binds it. -/
theorem owner?_eq_none_iff (S : Scopes α) (s : Nat) (name : String) :
    S.owner? s name = none ↔ ∀ k u, S.outward s k = some u → S.binds u name = false := by
  induction s using S.outer_induction with
  | step s ih =>
      rw [owner?_eq, forall_outward_iff S s fun u => S.binds u name = false]
      by_cases hb : S.binds s name = true
      · rw [if_pos hb]
        exact iff_of_false nofun fun h => Bool.eq_false_iff.mp h.1 hb
      · rw [if_neg hb, Option.bind_eq_none_iff, and_iff_right (Bool.eq_false_iff.mpr hb)]
        exact forall_congr' fun o => imp_congr_right fun ho => ih o ho

/-- The owner of a name binds it. -/
theorem binds_of_owner? {S : Scopes α} {s o : Nat} {name : String}
    (h : S.owner? s name = some o) : S.binds o name = true := by
  obtain ⟨_, _, hbinds, _⟩ := (owner?_eq_some_iff S s name o).mp h
  exact hbinds

/-! ### What a change of the bindings does to the walk -/

/-- Trees that agree on which scopes bind a name, and where the scopes stand, agree on its
owners. -/
theorem owner?_congr {S T : Scopes α} {name : String} (houter : ∀ u, T.outer? u = S.outer? u)
    (hbinds : ∀ u, T.binds u name = S.binds u name) (s : Nat) :
    T.owner? s name = S.owner? s name := by
  induction s using S.outer_induction with
  | step s ih =>
      rw [owner?_eq, owner?_eq, hbinds, houter]
      cases ho : S.outer? s with
      | none => rfl
      | some o => rw [Option.bind_some, Option.bind_some, ih o ho]

/-- Trees that agree on what the scopes bind a name to, and where the scopes stand, agree on what it
stands for. -/
theorem get?_congr {S T : Scopes α} {name : String} (houter : ∀ u, T.outer? u = S.outer? u)
    (hbindings : ∀ u, (T.bindings u).get? name = (S.bindings u).get? name) (s : Nat) :
    T.get? s name = S.get? s name := by
  have hbinds (u : Nat) : T.binds u name = S.binds u name := by rw [binds, hbindings, binds]
  rw [get?_eq_owner?, get?_eq_owner?, owner?_congr houter hbinds]
  simp only [hbindings]

section Set

variable (S : Scopes α) {o : Nat} (name : String) (a : α)

/-- Rebinding a name where it is bound moves no owner. -/
theorem owner?_set_of_binds (hbinds : S.binds o name = true) (s : Nat) (other : String) :
    (S.set o name a).owner? s other = S.owner? s other := by
  refine owner?_congr (outer?_set S o name a) (fun u => ?_) s
  rw [Bool.eq_iff_iff, binds_set, or_iff_left_iff_imp]
  rintro ⟨rfl, -, rfl⟩
  exact hbinds

/-- Where the written scope owns the name, the name stands for what was written. -/
theorem get?_set_of_owner? (ho : o < S.size) {s : Nat}
    (hs : (S.set o name a).owner? s name = some o) : (S.set o name a).get? s name = some a := by
  rw [get?_eq_owner?, hs, Option.bind_some, get?_bindings_set, if_pos ⟨⟨rfl, ho⟩, rfl⟩]

/-- Every other name stands for what it did before. -/
theorem get?_set_of_name_ne {other : String} (hother : other ≠ name) (s : Nat) :
    (S.set o name a).get? s other = S.get? s other := by
  refine get?_congr (outer?_set S o name a) (fun u => ?_) s
  rw [get?_bindings_set, if_neg fun h => hother h.2.symm]

/-- Where the written scope does not own the name, the name stands for what it did before. -/
theorem get?_set_of_owner?_ne (ho : o < S.size) {s : Nat}
    (hs : (S.set o name a).owner? s name ≠ some o) :
    (S.set o name a).get? s name = S.get? s name := by
  induction s using S.outer_induction with
  | step s ih =>
      rw [owner?_eq] at hs
      rw [get?_eq, get?_eq S]
      -- The walk does not start at the written scope, for that one binds the name now.
      have hso : s ≠ o := by
        rintro rfl
        exact hs (if_pos ((binds_set S s name a s name).mpr (.inr ⟨rfl, ho, rfl⟩)))
      rw [get?_bindings_set, if_neg fun h => hso h.1.1, outer?_set]
      cases hb : (S.bindings s).get? name with
      | some b => rfl
      | none =>
          have hbinds : ¬(S.set o name a).binds s name = true := by
            rw [not_binds_iff, get?_bindings_set, if_neg fun h => hso h.1.1, hb]
          rw [if_neg hbinds, outer?_set] at hs
          cases houter : S.outer? s with
          | none => rfl
          | some r =>
              rw [houter] at hs
              rw [Option.none_or, Option.none_or, Option.bind_some, Option.bind_some,
                ih r houter hs]

end Set

section AddInside

variable (S : Scopes α) {s : Nat}

/-- A new scope changes nothing for the scopes that were there before. -/
theorem get?_addInside_of_ne (table : Table α) {t : Nat} (ht : t ≠ S.size) (name : String) :
    (S.addInside s table).get? t name = S.get? t name := by
  induction t using S.outer_induction with
  | step t ih =>
      rw [get?_eq, get?_eq S, bindings_addInside, if_neg ht, outer?_addInside_of_ne S s table ht]
      cases ho : S.outer? t with
      | none => rfl
      | some o =>
          have hlt := Nat.lt_trans (outer?_lt ho) (lt_size_of_outer? ho)
          rw [Option.bind_some, Option.bind_some, ih o ho (Nat.ne_of_lt hlt)]

/-- A new scope without bindings of its own reads what the scope around it reads. -/
theorem get?_addInside_nil (hs : s < S.size) (name : String) :
    (S.addInside s []).get? S.size name = S.get? s name := by
  rw [get?_eq, bindings_addInside, if_pos rfl, outer?_addInside S s [] S.size hs, if_pos rfl,
    Table.get?_nil, Option.none_or, Option.bind_some,
    get?_addInside_of_ne S [] (Nat.ne_of_lt hs)]

end AddInside

end Scopes

end Scripting
