import Scripting.Proofs.Run.Lasting
import Scripting.Proofs.Run.Outcome

/-!
# Equality

Two values of one type are compared by what is essential of them, the contents of integers, strings,
booleans and null and the identity of everything else, so that `==` is an equivalence among the
values of a type. Of the values that a history shows, those that are equal like this are one value.
An identity that a state has yet to give belongs to nothing in it, so whatever is made next equals
nothing that there is.
-/

namespace Scripting

/-- What `==` looks at in a value. -/
inductive Essence where
  | integer (n : Int)
  | string (s : String)
  | boolean (b : Bool)
  | null
  | builtin (b : Builtin)
  /-- The identity of a list, a map, a function, a class or a bound method. -/
  | thing (ident : Nat)
  /-- The identity of an object. -/
  | object (ident : Nat)
  | signal
  deriving DecidableEq, Repr

/-- The operators that two values of a type have. -/
def TypeTag.operators : TypeTag → List String
  | .integer => ["+", "-", "*", "/", "<", ">", "==", "!="]
  | .string => ["+", "==", "!="]
  | _ => ["==", "!="]

namespace Value

variable {a b c : Value}

def essence : Value → Essence
  | integer n => .integer n
  | string s => .string s
  | boolean b => .boolean b
  | null => .null
  | array i _ => .thing i
  | hash i _ => .thing i
  | function f => .thing f.ident
  | builtin b => .builtin b
  | cls c => .thing c.own.ident
  | object o => .object o.ident
  | boundMethod i _ _ _ => .thing i
  | returned _ => .signal
  | failed _ => .signal

/-- Values of one type are the same if they are essentially so. -/
theorem same_iff_essence (ha : a.isSignal = false) (htype : a.type = b.type) :
    a.same b = true ↔ a.essence = b.essence := by
  revert ha htype
  cases a <;> cases b <;> simp [same, essence, type, isSignal]

theorem binary_equal (htype : a.type = b.type) : a.binary "==" b = .boolean (a.same b) := by
  unfold binary
  split
  · rfl
  · rfl
  · rw [if_neg (not_not.mpr htype), if_pos rfl]

theorem binary_notEqual (htype : a.type = b.type) :
    a.binary "!=" b = .boolean !a.same b := by
  unfold binary
  split
  · rfl
  · rfl
  · rw [if_neg (not_not.mpr htype), if_neg (by decide), if_pos rfl]

theorem binary_eq_mismatch (htype : a.type ≠ b.type) (op : String) :
    a.binary op b = .failed (.typeMismatch a.type op b.type) := by
  rw [binary_of_type_ne op, if_pos htype]
  · exact fun h => htype (h.1.trans h.2.symm)
  · exact fun h => htype (h.1.trans h.2.symm)

theorem integerBinary_eq_unknown_iff (m n : Int) (op : String) :
    integerBinary m op n = .failed (.unknownBinary .integer op .integer) ↔
      op ∉ TypeTag.integer.operators := by
  fun_cases integerBinary m op n <;> simp_all [TypeTag.operators]

theorem stringBinary_eq_unknown_iff (s t : String) (op : String) :
    stringBinary s op t = .failed (.unknownBinary .string op .string) ↔
      op ∉ TypeTag.string.operators := by
  fun_cases stringBinary s op t <;> simp_all [TypeTag.operators]

/-- Two values of one type have no operators but those of the type. -/
theorem binary_eq_unknown_iff (htype : a.type = b.type) (op : String) :
    a.binary op b = .failed (.unknownBinary a.type op b.type) ↔ op ∉ a.type.operators := by
  have hother (hinteger : a.type ≠ .integer) (hstring : a.type ≠ .string) :
      a.binary op b = .failed (.unknownBinary a.type op b.type) ↔ op ∉ ["==", "!="] := by
    rw [binary_of_type_ne op (fun h => hinteger h.1) fun h => hstring h.1,
      if_neg (not_not.mpr htype)]
    split
    · simp_all
    · split <;> simp_all
  cases a with
  | integer m =>
      cases b with
      | integer n => exact integerBinary_eq_unknown_iff m n op
      | _ => cases htype
  | string s =>
      cases b with
      | string t => exact stringBinary_eq_unknown_iff s t op
      | _ => cases htype
  | _ => exact hother (by simp [type]) (by simp [type])

/-- The values of a type that a script can hold. -/
def OfType (T : TypeTag) : Type :=
  { v : Value // v.isSignal = false ∧ v.type = T }

theorem binary_equal_iff (ha : a.isSignal = false) (htype : a.type = b.type) :
    a.binary "==" b = .boolean true ↔ a.essence = b.essence := by
  rw [binary_equal htype, boolean.injEq, same_iff_essence ha htype]

theorem equivalence_equal (T : TypeTag) :
    Equivalence fun a b : OfType T => a.1.binary "==" b.1 = .boolean true := by
  have h (a b : OfType T) :
      a.1.binary "==" b.1 = .boolean true ↔ a.1.essence = b.1.essence :=
    binary_equal_iff a.2.1 (a.2.2.trans b.2.2.symm)
  exact ⟨fun a => (h a a).mpr rfl, fun hab => (h _ _).mpr ((h _ _).mp hab).symm,
    fun hab hbc => (h _ _).mpr (((h _ _).mp hab).trans ((h _ _).mp hbc))⟩

end Value

namespace Registry

variable {w : Registry} {s : State}

/-- What has an identity in a state got it before. -/
theorem Fits.essence_lt (h : w.Fits s) {v : Value} (hv : w.Knows v) :
    (∀ i, v.essence = .thing i → i < s.nextIdent) ∧
      ∀ i, v.essence = .object i → i < s.properties.size := by
  have hthing {i : Nat} {u : Value} (hu : w.value i = some u) : i < s.nextIdent := by
    by_contra hi
    cases (h.value i (Nat.le_of_not_lt hi)).symm.trans hu
  have hobject {i : Nat} {c : Class} (hc : w.object i = some c) : i < s.properties.size := by
    by_contra hi
    cases (h.object i (Nat.le_of_not_lt hi)).symm.trans hc
  have hat := hv.head
  cases v <;> refine ⟨?_, ?_⟩ <;> rintro i ⟨⟩
  case array => exact hthing hat
  case hash => exact hthing hat
  case function => exact hthing hat
  case cls c => exact hthing (hat c c.mem_lineage_self).1
  case boundMethod => exact hthing hat.1
  case object => exact hobject hat.1

end Registry

theorem runOn_binary {options : Options} {run : RunBody} {scope : Nat} {s t : State}
    {left right : Expr} {a b : Value}
    (h : Part.Gives options run scope [.expr left, .expr right] s [a, b] t) (op : String) :
    ((Expr.binary left op right).eval options run scope).runOn s = (some (a.binary op b), t) := by
  have hgives : Part.Gives options run scope
    ((Part.expr (.binary left op right)).parts [a, b]) s [a, b] t := h
  exact hgives.runOn_eval

/-- Among the values of a type `==` is an equivalence that compares contents or identities, and `!=`
is its negation. Operators that the type does not have are unknown; values of different types have
none at all. A history never shows two different values that are equal. In a reachable state nothing
is equal to what has an identity that is yet to be given. -/
theorem equality_is_equivalence :
    (∀ T, Equivalence fun a b : Value.OfType T => a.1.binary "==" b.1 = .boolean true) ∧
    (∀ a b : Value, a.isSignal = false → a.type = b.type →
      (∃ p, a.binary "==" b = .boolean p ∧ a.binary "!=" b = .boolean !p ∧
        (p = true ↔ a.essence = b.essence)) ∧
      ∀ op, a.binary op b = .failed (.unknownBinary a.type op b.type) ↔
        op ∉ a.type.operators) ∧
    (∀ a b : Value, a.type ≠ b.type → ∀ op,
      a.binary op b = .failed (.typeMismatch a.type op b.type)) ∧
    (∀ A B op,
      RuntimeError.message (.typeMismatch A op B) =
          "type mismatch: " ++ A.name ++ " " ++ op ++ " " ++ B.name ∧
        RuntimeError.message (.unknownBinary A op B) =
          "unknown operator: " ++ A.name ++ " " ++ op ++ " " ++ B.name) ∧
    (∀ (options : Options) (run : RunBody) (scope : Nat) (s t : State) (left right : Expr)
      (a b : Value), Part.Gives options run scope [.expr left, .expr right] s [a, b] t →
        ∀ op, ((Expr.binary left op right).eval options run scope).runOn s =
          (some (a.binary op b), t)) ∧
    (∀ requests a b, Shown requests a → Shown requests b → a.isSignal = false →
      a.type = b.type → (a.binary "==" b = .boolean true ↔ a = b)) ∧
    ∀ s : State, s.Reachable → ∀ v, s.Contains v → ∀ u : Value, u.type = v.type →
      u.essence = .thing s.nextIdent ∨ u.essence = .object s.properties.size →
        u.binary "==" v = .boolean false := by
  refine ⟨Value.equivalence_equal, fun a b ha htype => ⟨?_, Value.binary_eq_unknown_iff htype⟩,
    fun a b => Value.binary_eq_mismatch, fun A B op => ⟨rfl, rfl⟩,
    fun options run scope s t left right a b => runOn_binary, ?_, ?_⟩
  · exact ⟨_, Value.binary_equal htype, Value.binary_notEqual htype,
      Value.same_iff_essence ha htype⟩
  · intro requests a b ha hb hvalue htype
    rw [Value.binary_equal htype, Value.boolean.injEq]
    refine ⟨ha.eq_of_same hb, ?_⟩
    rintro rfl
    exact (Value.same_iff_essence hvalue rfl).mpr rfl
  · intro s hs v hv u htype hnew
    obtain ⟨w, hw⟩ := hs.exists_fits
    obtain ⟨hthing, hobject⟩ := hw.essence_lt (hw.stores.everywhere hv)
    have hu : u.isSignal = false := by
      cases u <;> first | rfl | simp [Value.essence] at hnew
    have hne : u.essence ≠ v.essence := by
      intro h
      rw [h] at hnew
      exact hnew.elim (fun h => Nat.lt_irrefl _ (hthing _ h)) fun h => Nat.lt_irrefl _ (hobject _ h)
    rw [Value.binary_equal htype, Value.boolean.injEq, ← Bool.not_eq_true,
      Value.same_iff_essence hu htype]
    exact hne

/-- Two lists with the same elements are made and bound, then asked for. -/
def twoLists : List HostRequest :=
  [.root, .program {} 1 0 [.letIn "a" (.array [.str "x"]), .letIn "b" (.array [.str "x"])],
    .statement {} 1 0 (.expr (.ident "a")), .statement {} 1 0 (.expr (.ident "b"))]

theorem equality_is_equivalence_of_twoLists :
    Shown twoLists (.array 0 [.string "x"]) ∧ Shown twoLists (.array 1 [.string "x"]) ∧
      (Value.array 0 [.string "x"]).binary "==" (.array 0 [.string "x"]) = .boolean true ∧
      (Value.array 0 [.string "x"]).binary "==" (.array 1 [.string "x"]) ≠ .boolean true ∧
      ((Expr.binary .null "==" (.bool true)).eval {} (runBody {} 1) 0).runOn .oneScope =
        (some (.failed (.typeMismatch .null "==" .boolean)), .oneScope) ∧
      (Value.string "a").binary "-" (.string "b") =
        .failed (.unknownBinary .string "-" .string) := by
  obtain ⟨hequivalence, hoperators, hmismatch, -, heval, hshown, -⟩ := equality_is_equivalence
  have hfirst : Shown twoLists (.array 0 [.string "x"]) :=
    .given (show twoLists = twoLists.take 2 ++ _ :: _ from rfl) (by with_unfolding_all rfl)
      (.self _)
  have hsecond : Shown twoLists (.array 1 [.string "x"]) :=
    .given (show twoLists = twoLists.take 3 ++ _ :: _ from rfl) (by with_unfolding_all rfl)
      (.self _)
  refine ⟨hfirst, hsecond, (hequivalence .array).refl ⟨_, rfl, rfl⟩, fun h => ?_, ?_, ?_⟩
  · cases (hshown _ _ _ hfirst hsecond rfl rfl).mp h
  · rw [heval {} (runBody {} 1) 0 .oneScope .oneScope .null (.bool true) .null (.boolean true)
      (.cons rfl rfl (.cons rfl rfl (.nil _))), hmismatch _ _ (by decide)]
    rfl
  · exact ((hoperators (.string "a") (.string "b") rfl rfl).2 "-").mpr (by decide)

end Scripting
