import Scripting.Proofs.Run.SuperCall
import Scripting.Proofs.Session.Conduct

/-!
# Properties that nothing is assigned to

An object is made with the methods of its own class as properties. As long as nothing is assigned to
it, a property stays what the object was made with, in all states and for all values that stand for
the object.
-/

namespace Scripting

namespace Watch

variable {s t : State} {ident : Nat} {name : String}

/-- The watch over one property of the object with an identity. -/
def ofProperty (ident : Nat) (name : String) : Watch where
  object s o := o.ident = ident → ident < s.properties.size ∧ s.Untouched o name
  stays s t := s.properties.size ≤ t.properties.size ∧ (ident < s.properties.size →
    t.properties[ident]?.bind (·.get? name) = s.properties[ident]?.bind (·.get? name))
  free o n := ¬(o.ident = ident ∧ n = name)
  refl _ := ⟨Nat.le_refl _, fun _ => rfl⟩
  trans h h' := ⟨Nat.le_trans h.1 h'.1, fun hs =>
    (h'.2 (Nat.lt_of_lt_of_le hs h.1)).trans (h.2 hs)⟩
  keeps {s t o} h ho := by
    rintro rfl
    obtain ⟨hlt, huntouched⟩ := ho rfl
    exact ⟨Nat.lt_of_lt_of_le hlt h.1, (h.2 hlt).trans huntouched⟩
  same h := by rw [h]; exact ⟨Nat.le_refl _, fun _ => rfl⟩
  grown s c := by
    refine ⟨?_, fun h => ?_⟩
    · rw [State.withObject, Array.size_push]
      exact Nat.le_succ _
    · rw [State.withObject, Array.getElem?_push_lt h, Array.getElem?_eq_getElem h]
  made s c := by
    rintro rfl
    refine ⟨?_, ?_⟩
    · rw [State.withObject, Array.size_push]
      exact Nat.lt_succ_self _
    · rw [State.Untouched, State.withObject, Array.getElem?_push_size, Option.bind_some]
      exact Table.get?_mapContents Value.function c.own.methods name
  assigned {o n} hfree s v := by
    refine ⟨Nat.le_of_eq Array.size_modify.symm, fun h => ?_⟩
    rw [Array.getElem?_modify]
    split
    · next hident =>
        have hname : n ≠ name := fun hn => hfree ⟨hident, hn⟩
        rw [Option.bind_map]
        refine congrArg _ (funext fun table => ?_)
        exact (Table.get?_set _ _ _ _).trans (if_neg hname)
    · rfl

end Watch

/-- The conduct of scripts of which nothing is asked but what a watch asks. -/
def Watch.conduct (w : Watch) : Conduct where
  toWatch := w
  node _ := True
  name _ := True
  integer _ := True
  literal _ := True
  measured _ := True
  child _ _ := trivial
  int _ := trivial
  letIn _ := trivial
  assign _ := trivial
  classDef _ := ⟨trivial, fun _ _ => trivial⟩
  function _ := trivial
  params _ _ _ := trivial
  body _ := trivial
  wrapped _ := trivial
  array _ := trivial
  string _ := trivial

namespace Session

/-- The evaluations that do not assign to a property of an object, neither themselves nor through
what they start. -/
def NeverAssigns (options : Options) (o : Object) (name : String) : Evaluation → Prop :=
  Evaluation.AssignsOnly options fun o' n => ¬(o'.ident = o.ident ∧ n = name)

/-- Where a property of an object is looked up to which nothing was assigned so far, the object has
there what it was made with. -/
theorem untouched_of_comesAlong {options : Options} {depth scope : Nat} {s : State} {o : Object}
    {name : String} (h : (Session.start options).ComesAlong (NeverAssigns options o name)
      ⟨depth, .property (.object o) name, scope, s⟩) : s.Untouched o name := by
  have hready := Conduct.ready_of_comesAlong (κ := (Watch.ofProperty o.ident name).conduct)
    (fun _ _ _ => trivial) (fun _ hassigns => ⟨fun _ _ _ _ _ => trivial, hassigns⟩)
    (Conduct.tidy_start options) h
  exact (hready.node.head.2 rfl).2

end Session

/-! ### Scripts without such assignments -/

/-- An expression assigns to a property with a name. -/
def Expr.AssignsTo (name : String) : Expr → Prop
  | .assign (.property _ n) _ => n = name
  | _ => False

/-- The conduct of scripts in which all expressions satisfy `p`. -/
def Conduct.ofForall (p : Expr → Prop) : Conduct where
  toWatch := .nothing
  node := Part.Forall p
  name _ := True
  integer _ := True
  literal := FunctionLiteral.Forall p
  measured _ := True
  child := Part.forall_of_mem_children
  int _ := trivial
  letIn _ := trivial
  assign _ := trivial
  classDef h := ⟨trivial, (FunctionLiteral.forallIn_iff _).mp h⟩
  function h := by
    have hliteral := h.resolve_left Expr.noConfusion
    rw [Expr.Forall] at hliteral
    exact hliteral.2
  params _ _ _ := trivial
  body := FunctionLiteral.forall_body
  wrapped _ := trivial
  array _ := trivial
  string _ := trivial

theorem Conduct.lenient_ofForall (p : Expr → Prop) : (ofForall p).Lenient :=
  ⟨fun _ => trivial, fun _ _ => trivial⟩

/-- Scripts that hold no assignment to a property with a name never assign to one. -/
theorem Session.neverAssigns_of_admitted {options : Options} {o : Object} {name : String}
    {e : Evaluation} (he : (Conduct.ofForall fun e => ¬e.AssignsTo name).Admitted options e) :
    NeverAssigns options o name e := by
  rintro inner hinner o' n ⟨object, value, v, t, hnode, -⟩ ⟨-, rfl⟩
  have hforall := (he.started hinner).1.node
  rw [hnode] at hforall
  have hassign := Or.resolve_left hforall Expr.noConfusion
  rw [Expr.Forall] at hassign
  exact hassign.1 rfl

end Scripting
