import Scripting.Proofs.Run.Preservation

/-!
# The evaluator keeps its invariants

The induction along the tree. Every part of an expression is evaluated through `Eval.onValue` or
gathered with the parts beside it, so each case is the rule of that chain applied to the parts.
-/

namespace Scripting

namespace Invariant

open Eval

variable {P : Value → Prop} {E : RuntimeError → Prop} {p : Expr → Prop}

section

variable (inv : Invariant P E p) {options : Options} (scope : Nat)
include inv

/-! ### Classes and assignments -/

theorem keeps_readAncestors (superclass : Option String) :
    (readAncestors scope superclass).Keeps (Safe P)
      (Gathered (Answer P E) fun ks => ∀ k ∈ ks, ∀ row ∈ k.methods, row.2.literal.Forall p) := by
  unfold readAncestors
  split
  · exact Keeps.pure fun k hk => absurd hk List.not_mem_nil
  · next parent =>
      refine (inv.keeps_readName scope parent).bind fun value hvalue => ?_
      split
      · next c =>
          have hc : (Value.cls c).Everywhere P := (Outcome.answer hvalue).everywhere rfl
          refine Keeps.pure fun k hk row hrow => ?_
          exact (inv.cls c).mp hc row.2 ((c.mem_closures _).mpr ⟨k, hk, row, hrow, rfl⟩)
      · split
        · exact Keeps.pure hvalue
        · exact Keeps.pure (.failed (inv.runtime _ (by simp) (by simp)))

theorem keeps_makeClass (name : String) (superclass : Option String)
    {methods : List (String × FunctionLiteral)} (hmethods : FunctionLiteral.ForallIn p methods) :
    (makeClass scope name superclass methods).Keeps (Safe P) (Answer P E) := by
  refine keeps_onGathered (inv.keeps_readAncestors scope superclass) fun ancestors hancestors => ?_
  have hclosures : Keeps (Safe P) (fun rows => ∀ row ∈ rows, row.2.literal.Forall p)
      (methods.mapM fun row => do return (row.1, (⟨← freshIdent, row.2, scope⟩ : Closure))) := by
    refine Keeps.mapM methods fun row hrow => ?_
    have hrow : row.2.Forall p := (FunctionLiteral.forallIn_iff methods).mp hmethods row hrow
    exact keeps_freshIdent.bind fun i _ => Keeps.pure hrow
  refine hclosures.bind fun rows hrows => keeps_freshIdent.bind fun ident _ => ?_
  refine Keeps.pure (.ordinary ((inv.cls _).mpr fun f hf => ?_))
  obtain ⟨k, hk, row, hrow, rfl⟩ := (Class.mem_closures _ f).mp hf
  have hown : Table.All (fun f : Closure => f.literal.Forall p) (Table.ofList rows) :=
    Table.All.ofList hrows
  rcases List.mem_cons.mp hk with rfl | hk
  · exact hown row hrow
  · exact hancestors k hk row hrow

theorem keeps_assignTo (name : String) {v : Value} (hv : v.Everywhere P) :
    (assignTo options scope name v).Keeps (Safe P) (Answer P E) := by
  refine (keeps_assignName scope name hv).bind fun found _ => ?_
  split
  · exact Keeps.pure (.ordinary hv)
  · split
    · exact inv.keeps_fail _ (by simp) (by simp)
    · exact (keeps_bindName scope name hv).bind fun _ _ => Keeps.pure (.ordinary hv)

omit scope in
theorem keeps_assignProperty (target : Value) (name : String) {v : Value} (hv : v.Everywhere P) :
    (assignProperty target name v).Keeps (Safe P) (Answer P E) := by
  unfold assignProperty
  split
  · next o => exact (keeps_setOwnProperty o name hv).bind fun _ _ => Keeps.pure (.ordinary hv)
  · exact inv.keeps_fail _ (by simp) (by simp)

end

/-! ### Along the tree -/

variable {options : Options} {run : RunBody}

mutual

theorem keeps_expr (inv : Invariant P E p) (hrun : KeepsBodies P E p run) (scope : Nat)
    (e : Expr) (he : e.Forall p) : (e.eval options run scope).Keeps (Safe P) (Outcome P E) := by
  match e with
  | .missing =>
      rw [Expr.eval]
      exact Keeps.pure (.answer (.failed (inv.missing he)))
  | .ident name =>
      rw [Expr.eval]
      exact keeps_outcome (inv.keeps_readName scope name)
  | .int value digits =>
      rw [Expr.eval]
      exact Keeps.pure (.ordinary (inv.literal value digits he))
  | .str value =>
      rw [Expr.eval]
      exact Keeps.pure (.ordinary (inv.string value))
  | .bool value =>
      rw [Expr.eval]
      exact Keeps.pure (.ordinary (inv.boolean value))
  | .null =>
      rw [Expr.eval]
      exact Keeps.pure (.ordinary inv.null)
  | .this =>
      rw [Expr.eval]
      exact keeps_outcome (inv.keeps_ofLookup (keeps_lookup scope "this") (by simp) (by simp))
  | .super =>
      rw [Expr.eval]
      exact keeps_outcome (inv.keeps_ofLookup (keeps_lookup scope "super") (by simp) (by simp))
  | .array elements =>
      rw [Expr.Forall] at he
      rw [Expr.eval]
      refine keeps_onGathered (inv.keeps_exprs hrun scope elements he.2) fun vs hvs => ?_
      exact keeps_outcome (inv.keeps_newArray hvs)
  | .map pairs =>
      rw [Expr.Forall] at he
      rw [Expr.eval]
      refine keeps_onGathered (inv.keeps_pairs hrun scope pairs he.2) fun vs hvs => ?_
      exact keeps_outcome (inv.keeps_newHash hvs)
  | .index target position =>
      rw [Expr.Forall] at he
      rw [Expr.eval]
      refine keeps_onValue (inv.keeps_expr hrun scope target he.2.1) fun v hv => ?_
      refine keeps_onValue (inv.keeps_expr hrun scope position he.2.2) fun w _ => ?_
      exact Keeps.pure (.answer (inv.answer_index hv w))
  | .property object name =>
      rw [Expr.Forall] at he
      rw [Expr.eval]
      refine keeps_onValue (inv.keeps_expr hrun scope object he.2) fun v hv => ?_
      exact keeps_outcome (inv.keeps_readProperty scope name hv)
  | .assign target value =>
      rw [Expr.Forall] at he
      rw [Expr.eval]
      refine keeps_onValue (inv.keeps_expr hrun scope value he.2.2) fun v hv => ?_
      cases target with
      | ident name => exact keeps_outcome (inv.keeps_assignTo scope name hv)
      | property object name =>
          have htarget := he.2.1
          rw [Expr.Forall] at htarget
          refine keeps_onValue (inv.keeps_expr hrun scope object htarget.2) fun w _ => ?_
          exact keeps_outcome (inv.keeps_assignProperty w name hv)
      | _ => exact Keeps.pure (.answer (.failed (inv.unassignable _ value he.1 rfl)))
  | .new className args =>
      rw [Expr.Forall] at he
      rw [Expr.eval]
      have hname := keeps_outcome (inv.keeps_readName scope className)
      refine keeps_onValue hname fun callee hcallee => ?_
      refine keeps_onGathered (inv.keeps_exprs hrun scope args he.2) fun vs hvs => ?_
      exact keeps_outcome (inv.keeps_makeObject hrun hcallee hvs)
  | .unary op operand =>
      rw [Expr.Forall] at he
      rw [Expr.eval]
      refine keeps_onValue (inv.keeps_expr hrun scope operand he.2) fun v _ => ?_
      exact Keeps.pure (.answer (inv.answer_unary op v))
  | .binary left op right =>
      rw [Expr.Forall] at he
      rw [Expr.eval]
      refine keeps_onValue (inv.keeps_expr hrun scope left he.2.1) fun v _ => ?_
      refine keeps_onValue (inv.keeps_expr hrun scope right he.2.2) fun w _ => ?_
      exact Keeps.pure (.answer (inv.answer_binary v op w))
  | .logical left op right =>
      rw [Expr.Forall] at he
      rw [Expr.eval]
      refine keeps_onValue (inv.keeps_expr hrun scope left he.2.1) fun v _ => ?_
      split
      · exact Keeps.pure (.ordinary (inv.boolean _))
      · split
        · exact Keeps.pure (.ordinary (inv.boolean _))
        · refine keeps_onValue (inv.keeps_expr hrun scope right he.2.2) fun w _ => ?_
          exact Keeps.pure (.ordinary (inv.boolean _))
  | .cond condition consequence none =>
      rw [Expr.Forall] at he
      rw [Expr.eval]
      refine keeps_onValue (inv.keeps_expr hrun scope condition he.2.1) fun v _ => ?_
      split
      · exact inv.keeps_block hrun scope consequence he.2.2 inv.null
      · exact Keeps.pure (.ordinary inv.null)
  | .cond condition consequence (some alternative) =>
      rw [Expr.Forall] at he
      rw [Expr.eval]
      refine keeps_onValue (inv.keeps_expr hrun scope condition he.2.1) fun v _ => ?_
      split
      · exact inv.keeps_block hrun scope consequence he.2.2.1 inv.null
      · exact inv.keeps_block hrun scope alternative he.2.2.2 inv.null
  | .function literal =>
      rw [Expr.Forall] at he
      rw [Expr.eval]
      refine keeps_freshIdent.bind fun i _ => ?_
      exact Keeps.pure (.ordinary (inv.everywhere_function he.2))
  | .call callee args =>
      rw [Expr.Forall] at he
      cases callee with
      | property object name =>
          have hcallee := he.2.1
          rw [Expr.Forall] at hcallee
          rw [Expr.eval]
          refine keeps_onValue (inv.keeps_expr hrun scope object hcallee.2) fun v hv => ?_
          have hproperty : (readProperty options scope v name).Keeps (Safe P) (Outcome P E) :=
            keeps_outcome (inv.keeps_readProperty scope name hv)
          refine keeps_onValue hproperty fun f hf => ?_
          refine keeps_onGathered (inv.keeps_exprs hrun scope args he.2.2) fun vs hvs => ?_
          refine keeps_outcome (inv.keeps_callValue hrun hf hvs fun o ho => ?_)
          cases v with
          | object o' => cases ho; exact hv
          | _ => cases ho
      | _ =>
          rw [Expr.eval]
          · refine keeps_onValue (inv.keeps_expr hrun scope _ he.2.1) fun f hf => ?_
            refine keeps_onGathered (inv.keeps_exprs hrun scope args he.2.2) fun vs hvs => ?_
            exact keeps_outcome (inv.keeps_callValue hrun hf hvs fun o ho => by cases ho)
          · nofun

theorem keeps_exprs (inv : Invariant P E p) (hrun : KeepsBodies P E p run) (scope : Nat)
    (es : List Expr) (hes : Expr.ForallIn p es) :
    (Expr.evalAll options run scope es).Keeps (Safe P)
      (Gathered (Outcome P E) fun vs => ∀ v ∈ vs, v.Everywhere P) := by
  match es with
  | [] =>
      rw [Expr.evalAll]
      exact Keeps.pure fun v hv => absurd hv List.not_mem_nil
  | e :: rest =>
      rw [Expr.ForallIn] at hes
      rw [Expr.evalAll]
      refine (inv.keeps_expr hrun scope e hes.1).bind fun v hv => ?_
      split
      · exact Keeps.pure hv
      · next hs =>
          have hv : v.Everywhere P := hv.everywhere (Bool.eq_false_iff.mpr hs)
          refine (inv.keeps_exprs hrun scope rest hes.2).bind fun r hr => Keeps.pure ?_
          cases r with
          | error signal => exact hr
          | ok vs => exact List.forall_mem_cons.mpr ⟨hv, hr⟩

theorem keeps_pairs (inv : Invariant P E p) (hrun : KeepsBodies P E p run) (scope : Nat)
    (pairs : List (Expr × Expr)) (hpairs : Expr.ForallInPairs p pairs) :
    (Expr.evalPairs options run scope pairs).Keeps (Safe P)
      (Gathered (Outcome P E) fun vs =>
        ∀ pair ∈ vs, pair.1.Everywhere P ∧ pair.2.Everywhere P) := by
  match pairs with
  | [] =>
      rw [Expr.evalPairs]
      exact Keeps.pure fun v hv => absurd hv List.not_mem_nil
  | (key, value) :: rest =>
      rw [Expr.ForallInPairs] at hpairs
      rw [Expr.evalPairs]
      refine (inv.keeps_expr hrun scope key hpairs.1).bind fun k hk => ?_
      split
      · exact Keeps.pure hk
      · next hks =>
          have hk : k.Everywhere P := hk.everywhere (Bool.eq_false_iff.mpr hks)
          refine (inv.keeps_expr hrun scope value hpairs.2.1).bind fun v hv => ?_
          split
          · exact Keeps.pure hv
          · next hvs =>
              have hv : v.Everywhere P := hv.everywhere (Bool.eq_false_iff.mpr hvs)
              refine (inv.keeps_pairs hrun scope rest hpairs.2.2).bind fun r hr => Keeps.pure ?_
              cases r with
              | error signal => exact hr
              | ok vs => exact List.forall_mem_cons.mpr ⟨⟨hk, hv⟩, hr⟩

theorem keeps_stmt (inv : Invariant P E p) (hrun : KeepsBodies P E p run) (scope : Nat)
    (s : Stmt) (hs : s.Forall p) : (s.eval options run scope).Keeps (Safe P) (Outcome P E) := by
  match s with
  | .letIn name value =>
      rw [Stmt.Forall] at hs
      rw [Stmt.eval]
      refine keeps_onValue (inv.keeps_expr hrun scope value hs) fun v hv => ?_
      exact (keeps_bindName scope name hv).bind fun _ _ => Keeps.pure (.ordinary inv.null)
  | .ret value =>
      by_cases hmissing : value = .missing
      · subst hmissing
        rw [Stmt.eval]
        exact Keeps.pure (.returned inv.null)
      · have hvalue := (Stmt.forall_ret hmissing).mp hs
        rw [Stmt.eval]
        · refine keeps_onValue (inv.keeps_expr hrun scope value hvalue) fun v hv => ?_
          exact Keeps.pure (.returned hv)
        · exact hmissing
  | .expr value =>
      rw [Stmt.Forall] at hs
      rw [Stmt.eval]
      exact inv.keeps_expr hrun scope value hs
  | .classDef name superclass methods =>
      rw [Stmt.Forall] at hs
      rw [Stmt.eval]
      have hclass := keeps_outcome (inv.keeps_makeClass scope name superclass hs)
      refine keeps_onValue hclass fun c hc => ?_
      exact (keeps_bindName scope name hc).bind fun _ _ => Keeps.pure (.ordinary inv.null)

theorem keeps_block (inv : Invariant P E p) (hrun : KeepsBodies P E p run) (scope : Nat)
    (block : List Stmt) (hblock : Block.Forall p block) {last : Value}
    (hlast : last.Everywhere P) :
    (Block.evalFrom options run scope last block).Keeps (Safe P) (Outcome P E) := by
  match block with
  | [] =>
      rw [Block.evalFrom]
      exact Keeps.pure (.ordinary hlast)
  | s :: rest =>
      rw [Block.Forall] at hblock
      rw [Block.evalFrom]
      refine keeps_onValue (inv.keeps_stmt hrun scope s hblock.1) fun v hv => ?_
      exact inv.keeps_block hrun scope rest hblock.2 hv

end

/-- Bodies keep the invariant at every depth. -/
theorem keeps_runBody (inv : Invariant P E p) (options : Options) (depth : Nat) :
    KeepsBodies P E p (runBody options depth) := by
  induction depth with
  | zero => exact fun _ _ _ => Keeps.tooDeep
  | succ depth ih => exact fun block scope hblock => inv.keeps_block ih scope block hblock inv.null

theorem keeps_program (inv : Invariant P E p) (options : Options) (depth scope : Nat)
    {program : Block} (hprogram : Block.Forall p program) :
    (Block.evalProgram options (runBody options depth) scope program).Keeps (Safe P)
      (Answer P E) := by
  have hbodies := inv.keeps_runBody options depth
  have hnull : Value.null.Everywhere P := inv.null
  exact (inv.keeps_block hbodies scope program hprogram hnull).bind fun _ hv =>
    Keeps.pure (inv.answer_unwrapReturn hv)

end Invariant

end Scripting
