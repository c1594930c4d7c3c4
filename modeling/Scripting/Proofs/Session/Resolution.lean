import Mathlib
import Scripting.Proofs.Reading.Names
import Scripting.Proofs.Session.History
import Scripting.Proofs.Session.WellMade

/-!
# Methods of ancestors

Where methods are looked up in the ancestors of a class too, more properties are found and the
scopes of methods bind `super`. A program that does not say `super` cannot see these bindings: no
name of a text is spelled so. And where every class that extends another has a constructor of its
own, objects are made alike. So an evaluation that ends without an error where methods are looked up
in one class alone goes the same way where they are looked up in all.
-/

namespace Scripting

/-- A class definition that inherits from nothing or has a constructor of its own. -/
def Part.MakesItself : Part → Prop
  | .stmt (.classDef _ (some _) methods) => "constructor" ∈ methods.map Prod.fst
  | _ => True

namespace Comparison

/-- A run that looks methods up in one class alone and one that looks in the ancestors too. -/
def untilInherited : Comparison where
  base := .initial
  hidden name := name == "super"
  whole := 1
  Admits n := n.MakesItself ∧ ∀ name ∈ n.names, name ≠ "super"
  AdmitsClass := Class.MakesItself
  partsOnError := True

theorem makesItself_of_closures {ident : Nat} {name : String}
    {closures : List (String × Closure)} {ancestors : List ClassBody}
    (h : "constructor" ∈ closures.map Prod.fst) :
    Class.MakesItself ⟨⟨ident, name, Table.ofList closures⟩, ancestors⟩ :=
  .inr ((Table.get?_isSome_iff _ _).mpr ((Table.mem_names_ofList closures _).mpr h))

theorem simulation_untilInherited {left right : Options} (hleft : left.methodResolution = .own)
    (hassignment : left.assignment = right.assignment) :
    Simulation untilInherited left right where
  names n hn name hname := beq_eq_false_iff_ne.mpr (hn.2 name hname)
  this := rfl
  classes name superclass methods hn ident closures ancestors hclosures hancestors := by
    cases superclass with
    | none => exact .inl (hancestors rfl)
    | some parent =>
        have hconstructor : "constructor" ∈ methods.map Prod.fst := hn.1
        rw [← hclosures, List.map_map] at hconstructor
        exact makesItself_of_closures hconstructor
  walks := by
    refine .inr ⟨?_, trivial, rfl, fun _ hc => hc⟩
    rw [Options.walksSuperclasses, hleft]
    rfl
  strict := .inl (congrArg (· == .strict) hassignment)

/-- In the root scope of a session every binding counts. -/
theorem bindings_of_states_untilInherited {s t : State} (h : untilInherited.States s t) :
    t.scopes.bindings 0 = s.scopes.bindings 0 := by
  have hcounts : ∀ name, untilInherited.counts 0 name = true := fun _ => rfl
  exact (h.scopes.bindings_of_counts hcounts).trans (Table.mapContents_id Value.rename_id _)

end Comparison

/-! ### What a text cannot say -/

theorem Part.name_mem_atoms {n : Part} {name : String} (h : name ∈ n.names)
    (hthis : n ≠ .expr .this) (hsuper : n ≠ .expr .super) : .name name ∈ n.atoms := by
  cases n with
  | expr e =>
      cases e with
      | ident n =>
          rw [List.mem_singleton.mp h]
          exact List.mem_cons_self
      | assign target value =>
          cases target with
          | ident n =>
              rw [List.mem_singleton.mp h]
              exact List.mem_cons_self
          | _ => cases h
      | this => exact absurd rfl hthis
      | super => exact absurd rfl hsuper
      | _ => cases h
  | meaning n =>
      rw [List.mem_singleton.mp h]
      exact List.mem_cons_self
  | _ => cases h

/-- A text that does not say `super` has no name that is spelled so. -/
theorem admitsBody_untilInherited {text : String} {program : Block}
    (hread : (Reading.ofText text).program? = .ok program)
    (hsuper : .expr .super ∉ Block.nodes program)
    (hclasses : ∀ n ∈ Block.nodes program, n.MakesItself) :
    Comparison.untilInherited.AdmitsBody program := by
  obtain ⟨hfaultless, rfl⟩ := Reading.program?_eq_ok hread
  refine fun n hn => ⟨hclasses n hn, ?_⟩
  rintro name hname rfl
  by_cases hthis : n = .expr .this
  · subst hthis
    exact absurd (List.mem_singleton.mp hname) (by decide)
  · have hne : n ≠ .expr .super := fun h => hsuper (h ▸ hn)
    have hword := Reading.isNameWord hfaultless (nameWords_tokenize text) hn
      (Part.name_mem_atoms hname hthis hne)
    exact absurd hword (by decide)

/-- The options with methods looked up in ancestors too. -/
def Options.chained (options : Options) : Options :=
  { options with methodResolution := .chain }

/-- Evaluations in new sessions, of which the second looks methods up in ancestors too. -/
theorem Session.evaluateWithin_chained {options : Options}
    (hown : options.methodResolution = .own) {text : String} {program : Block}
    (hread : (Reading.ofText text).program? = .ok program)
    (hsuper : .expr .super ∉ Block.nodes program)
    (hclasses : ∀ n ∈ Block.nodes program, n.MakesItself) (depth : Nat) (v : Value)
    (after : Session) (h : (start options).evaluateWithin depth program = (.ok v, after))
    (hv : v.isError = false) :
    ∃ after', (start options.chained).evaluateWithin depth program = (.ok v, after') ∧
      after'.state.output = after.state.output ∧ after'.bindings = after.bindings := by
  have S : Simulation .untilInherited (start options).options (start options.chained).options :=
    Comparison.simulation_untilInherited hown rfl
  have hstates : Comparison.untilInherited.States (start options).state
      (start options.chained).state := Comparison.states_start (Nat.le_refl 1) _ _
  rcases S.evaluateWithin hstates rfl depth
    (admitsBody_untilInherited hread hsuper hclasses) with ⟨w, hw, -, herror⟩ | ⟨hafter, hresult⟩
  · rw [h] at hw
    cases hw
    rw [hv] at herror
    cases herror
  · have hroot : after.root = 0 := by
      have hroot := evaluateWithin_root (start options) depth program
      rwa [h] at hroot
    rw [h] at hafter hresult
    have hvalue : ((start options.chained).evaluateWithin depth program).1 = .ok v :=
      hresult.trans (congrArg Except.ok v.rename_id)
    refine ⟨_, Prod.ext hvalue rfl, hafter.output.trans String.empty_append, ?_⟩
    unfold Session.bindings
    rw [evaluateWithin_root, hroot]
    exact congrArg Table.sorted (Comparison.bindings_of_states_untilInherited hafter)

/-- Looking methods up in ancestors too changes nothing that shows about a program that ends without
an error where methods are looked up in one class alone, if the program does not say `super` and
every class in it that extends another has a constructor of its own: it prints the same, and its
result and the bindings of the session are the same. -/
theorem chain_extends_own {text : String} {program : Block} {options : Options}
    (hread : (Reading.ofText text).program? = .ok program)
    (hsuper : .expr .super ∉ Block.nodes program)
    (hclasses : ∀ n ∈ Block.nodes program, n.MakesItself)
    (hown : options.methodResolution = .own) :
    (∀ (depth : Nat) (v : Value) (after : Session),
        (Session.start options).evaluateWithin depth program = (.ok v, after) →
          v.isError = false →
            ∃ after', (Session.start options.chained).evaluateWithin depth program =
                (.ok v, after') ∧
              after'.state.output = after.state.output ∧ after'.bindings = after.bindings) ∧
      ∀ (v : Value) (after : Session),
        (Session.start options).run text = (.ok v, after) → v.isError = false →
          ∃ after', (Session.start options.chained).run text = (.ok v, after') ∧
            after'.state.output = after.state.output ∧ after'.bindings = after.bindings := by
  have hwithin := Session.evaluateWithin_chained hown hread hsuper hclasses
  refine ⟨hwithin, fun v after hrun hv => ?_⟩
  rw [Session.run_of_read hread] at hrun
  obtain ⟨after', hchained, hsame⟩ := hwithin options.depthLimit v after hrun hv
  exact ⟨after', (Session.run_of_read hread _).trans hchained, hsame⟩

/-- A text with a class that extends another and has a constructor of its own. -/
def extendingText : String :=
  "class A \x7b \x7d class B extends A \x7b let constructor = func(n) \x7b this.n = n \x7d \x7d new B(2).n"

/-- The program of the text. -/
def extendingProgram : Block :=
  [.classDef "A" none [],
    .classDef "B" (some "A")
      [("constructor", .mk ["n"] [.expr (.assign (.property .this "n") (.ident "n"))])],
    .expr (.property (.new "B" [.int 2 "2"]) "n")]

theorem chain_extends_own_of_extending :
    (Reading.ofText extendingText).program? = .ok extendingProgram ∧
      .expr .super ∉ Block.nodes extendingProgram ∧
      (∀ n ∈ Block.nodes extendingProgram, n.MakesItself) ∧
      ((Session.start {}).run extendingText).1 = .ok (.integer 2) ∧
      ((Session.start (Options.chained {})).run extendingText).1 = .ok (.integer 2) := by
  have hread : (Reading.ofText extendingText).program? = .ok extendingProgram := by cbv
  have hsuper : .expr .super ∉ Block.nodes extendingProgram := by
    simp [extendingProgram, Block.nodes, Block.nodesIn, Stmt.nodes, Expr.nodes, Expr.nodesIn,
      FunctionLiteral.nodesIn, FunctionLiteral.nodes]
  have hclasses : ∀ n ∈ Block.nodes extendingProgram, n.MakesItself := by
    simp [extendingProgram, Block.nodes, Block.nodesIn, Stmt.nodes, Expr.nodes, Expr.nodesIn,
      FunctionLiteral.nodesIn, FunctionLiteral.nodes, Part.MakesItself]
  have hrun : ((Session.start {}).run extendingText).1 = .ok (.integer 2) := by cbv
  obtain ⟨after, hchained, -⟩ :=
    (chain_extends_own hread hsuper hclasses rfl).2 _ _ (Prod.ext hrun rfl) rfl
  exact ⟨hread, hsuper, hclasses, hrun, congrArg Prod.fst hchained⟩

end Scripting
