import Mathlib
import Scripting.Proofs.Run.SuperReturn
import Scripting.Proofs.Session.Hygiene
import Scripting.Proofs.Session.Untouched

/-!
# Super dispatch

Where methods are looked up in ancestors, a session runs a method for an object only together with
the class that it was found on: `super` is the superclass of that class, whatever the class of the
object is. So calls of `super` climb the chain of definitions, past the classes that leave a method
out, and end at its top.
-/

namespace Scripting

open Evaluation

namespace Conduct

theorem not_name_this : ¬withoutReserved.name "this" :=
  show TokenKind.ofWord "this" ≠ .ident by decide

theorem not_name_super : ¬withoutReserved.name "super" :=
  show TokenKind.ofWord "super" ≠ .ident by decide

end Conduct

section

variable {options : Options} {e b : Evaluation} {name : String} {o : Object} {c : Class}
  {w : State}

theorem Session.ComesTo.admitted (h : (start options).ComesTo e) :
    Conduct.withoutReserved.Admitted options e :=
  Conduct.lenient_withoutReserved.admitted Conduct.reads_withoutReserved
    (Conduct.tidy_start options) h

/-- The scope of a method keeps what the call of the method bound in it. -/
theorem Session.ComesTo.bindsMethod (hwalks : options.walksSuperclasses = true)
    (h : (start options).ComesTo e) (hinvokes : e.Invokes options name o c b)
    (hretains : b.state.Retains Conduct.withoutReserved.name w) : w.BindsMethod b.scope o c :=
  (hinvokes.bindsMethod Conduct.not_name_this hwalks h.admitted).retains hretains
    Conduct.not_name_this Conduct.not_name_super

end

/-- Where methods are looked up in ancestors, a property of an object that nothing was assigned to
calls the first definition from the class of the object upwards, and a bound method calls one of the
class that it was found on. Whenever a method found on a class runs for an object, its scope binds
`this` to the object and `super` to the superclass of that class, as long as the method runs. There
a method of `super` is the nearest definition above that class, or there is an error, and to call it
is to run that definition for the same object. So if each definition but the topmost calls `super`
exactly once in its own scope, every definition runs exactly once, from the first one upwards. -/
theorem super_calls_climb_the_chain {options : Options}
    (hchain : options.methodResolution = .chain) :
    (∀ depth scope object name args s t u vs o,
      Part.Gives options (runBody options (depth + 1)) scope
        ((Part.expr (.call (.property object name) args)).parts vs) s vs t →
      (object.eval options (runBody options (depth + 1)) scope).runOn s = (some (.object o), u) →
      (Session.start options).ComesAlong (Session.NeverAssigns options o name)
        ⟨depth + 1, .property (.object o) name, scope, u⟩ →
      ∃ f k rest b, o.cls.definitions name = (f, k) :: rest ∧
        k.definitions name = o.cls.definitions name ∧
        Invokes options name o k
          ⟨depth + 1, .expr (.call (.property object name) args), scope, s⟩ b) ∧
      (∀ depth node scope s t vs ident f o c,
        (Session.start options).ComesTo ⟨depth + 1, node, scope, s⟩ →
        Part.Gives options (runBody options (depth + 1)) scope (node.parts vs) s vs t →
        node.callee? vs = some (.boundMethod ident f o c) →
        ∃ name b, c.own.methods.get? name = some f ∧
          Invokes options name o c ⟨depth + 1, node, scope, s⟩ b) ∧
      (∀ e name o c b, (Session.start options).ComesTo e → Invokes options name o c e b →
        (∀ w, (b.node.eval options (runBody options b.depth) b.scope).Passes b.state w →
          w.BindsMethod b.scope o c ∧ w.ResolvesSuper options b.scope o c) ∧
        (∀ depth name' args s t vs p,
          Relation.ReflTransGen (Starts options) b
            ⟨depth + 1, .expr (.call (.property .super name') args), b.scope, s⟩ →
          Part.Gives options (runBody options (depth + 1)) b.scope
            ((Part.expr (.call (.property .super name') args)).parts vs) s vs t →
          c.superclass? = some p →
          ∃ f k rest inner, c.definitionsAbove name' = (f, k) :: rest ∧
            Invokes options name' o k
              ⟨depth + 1, .expr (.call (.property .super name') args), b.scope, s⟩ inner) ∧
        ((∀ e' k b', Relation.ReflTransGen (Starts options) e e' →
            Invokes options name o k e' b' → (∃ f, (f, k) ∈ c.definitions name) →
            CallsSuperOnce options name o k b') →
          ∃ bodies, RunsEach options name o (c.definitions name) (b :: bodies) ∧
            ∀ e' k b', Relation.ReflTransGen (Starts options) b e' →
              Invokes options name o k e' b' → b' ∈ bodies)) ∧
      ∀ name, (RuntimeError.propertyNotFound name).message = "property " ++ name ++ " not found" := by
  have hwalks : options.walksSuperclasses = true := by
    rw [Options.walksSuperclasses, hchain]
    rfl
  refine ⟨?_, ?_, fun e name o c b he hinvokes => ⟨?_, ?_, ?_⟩, fun _ => rfl⟩
  · intro depth scope object name args s t u vs o hgives hobject hnever
    obtain ⟨f, k, rest, b, hfound, hb⟩ := exists_invokes_of_untouched hwalks hgives hobject
      (Session.untouched_of_comesAlong hnever)
    obtain ⟨hmethod, habove⟩ := Class.definitions_eq_cons hfound
    have hsame : k.definitions name = o.cls.definitions name := by
      rw [Class.definitions_of_get? hmethod, habove, hfound]
    exact ⟨f, k, rest, b, hfound, hsame, hb⟩
  · intro depth node scope s t vs ident f o c he hgives hcallee
    exact exists_invokes_of_boundMethod hwalks he.admitted hgives hcallee
  · intro w hw
    have hbody := (he.admitted.started (.single hinvokes.runs.starts)).1
    have hbinds := he.bindsMethod hwalks hinvokes (hbody.follows.passes hw).retains
    exact ⟨hbinds, hbinds.resolvesSuper hwalks⟩
  · intro depth name' args s t vs p hstarted hgives hp
    have hbody := (he.admitted.started (.single hinvokes.runs.starts)).1
    have hbinds := he.bindsMethod hwalks hinvokes (hbody.started hstarted).2.retains
    exact exists_invokes_of_super hwalks hbinds hp hgives
  · exact hinvokes.exists_climb hwalks Conduct.not_name_this Conduct.not_name_super he.admitted

/-! ### A chain with a gap -/

/-- A chain of four classes, the third of which leaves the method out. -/
def climbingText : String :=
  "class A \x7b let m = func() \x7b return 1 \x7d \x7d " ++
    "class B extends A \x7b let m = func() \x7b return super.m() \x7d \x7d " ++
    "class C extends B \x7b \x7d " ++
    "class D extends C \x7b let m = func() \x7b return super.m() \x7d \x7d let d = new D()"

/-- The program of the text. -/
def climbingProgram : Block :=
  [.classDef "A" none [("m", .mk [] [.ret (.int 1 "1")])],
    .classDef "B" (some "A") [("m", .mk [] (superReturn "m"))],
    .classDef "C" (some "B") [],
    .classDef "D" (some "C") [("m", .mk [] (superReturn "m"))],
    .letIn "d" (.new "D" [])]

namespace Climbing

/-- The topmost definition. -/
def topmost : Closure := ⟨0, .mk [] [.ret (.int 1 "1")], 0⟩

/-- A definition that hands the call on. -/
def handing (ident : Nat) : Closure := ⟨ident, .mk [] (superReturn "m"), 0⟩

def base : ClassBody := ⟨1, "A", Table.ofList [("m", topmost)]⟩

def middle : ClassBody := ⟨3, "B", Table.ofList [("m", handing 2)]⟩

def gap : ClassBody := ⟨4, "C", Table.ofList []⟩

/-- The class of the object. -/
def derived : Class := ⟨⟨6, "D", Table.ofList [("m", handing 5)]⟩, [gap, middle, base]⟩

/-- The object that the text makes. -/
def climber : Object := ⟨0, derived⟩

def chained : Options := { methodResolution := .chain }

theorem definitions_derived : derived.definitions "m" =
    [(handing 5, derived), (handing 2, ⟨middle, [base]⟩), (topmost, ⟨base, []⟩)] := rfl

theorem handsOn_derived : derived.HandsOn "m" where
  below f k hmem habove := by
    rw [definitions_derived] at hmem
    simp only [List.mem_cons, Prod.mk.injEq, List.not_mem_nil, or_false] at hmem
    rcases hmem with ⟨rfl, rfl⟩ | ⟨rfl, rfl⟩ | ⟨rfl, rfl⟩
    · rfl
    · rfl
    · exact absurd rfl habove
  topmost f k hmem habove := by
    rw [definitions_derived] at hmem
    simp only [List.mem_cons, Prod.mk.injEq, List.not_mem_nil, or_false] at hmem
    rcases hmem with ⟨rfl, rfl⟩ | ⟨rfl, rfl⟩ | ⟨rfl, rfl⟩
    · cases habove
    · cases habove
    · exact ⟨not_false, trivial⟩

theorem reads : (Reading.ofText climbingText).program? = .ok climbingProgram := by cbv

theorem exists_run : ∃ s, (Block.evalProgram chained (runBody chained 10) 0 climbingProgram).runOn
    (Session.start chained).state = (some .null, s) ∧
      s.scopes.get? 0 "d" = some (.object climber) := by
  have hrun : (fun after : Option Value × State => (after.1, after.2.scopes.get? 0 "d"))
      ((Block.evalProgram chained (runBody chained 10) 0 climbingProgram).runOn
        (Session.start chained).state) = (some .null, some (.object climber)) := by
    cbv
  obtain ⟨hresult, hobject⟩ := Prod.mk.inj hrun
  exact ⟨_, Prod.ext hresult rfl, hobject⟩

/-- The call of the method, after the text. -/
def call (s : State) : Evaluation :=
  ⟨10, .expr (.call (.property (.ident "d") "m") []), 0, s⟩

/-- The conduct of scripts that do not assign to the method. -/
def conduct : Conduct :=
  .ofForall fun e => ¬e.AssignsTo "m"

variable {s : State}

theorem obeyed (e : Evaluation) : conduct.Obeyed chained e :=
  (Conduct.lenient_ofForall _).obeyed chained e

theorem admitted_program (depth : Nat) : conduct.Admitted chained
    ⟨depth, .block climbingProgram, 0, (Session.start chained).state⟩ where
  tidy := Conduct.tidy_start chained
  node := by
    change Block.Forall (fun e => ¬e.AssignsTo "m") climbingProgram
    simp [climbingProgram, superReturn, Block.Forall, Stmt.Forall, Expr.Forall, Expr.ForallIn,
      FunctionLiteral.ForallIn, FunctionLiteral.Forall, Expr.AssignsTo]
  obeyed := obeyed _

theorem runOn_ident (hobject : s.scopes.get? 0 "d" = some (.object climber)) :
    ((Expr.ident "d").eval chained (runBody chained 10) 0).runOn s =
      (some (.object climber), s) := by
  have hbuiltin : Builtin.ofName? "d" = none := by decide
  have hlookup : (Eval.lookup 0 "d").runOn s = (some (some (.object climber)), s) :=
    congrArg (fun found => (some found, s)) hobject
  rw [Expr.eval, readName, hbuiltin]
  dsimp only
  rw [Eval.runOn_bind_of_some hlookup]
  rfl

section

variable (hrun : (Block.evalProgram chained (runBody chained 10) 0 climbingProgram).runOn
  (Session.start chained).state = (some .null, s))

include hrun

theorem admitted_ident : conduct.Admitted chained ⟨10, .expr (.ident "d"), 0, s⟩ where
  tidy := ((Conduct.leads_evalProgram (admitted_program 10)).passes (Eval.passes_of_runOn hrun)).tidy
  node := .inr not_false
  obeyed := obeyed _

/-- The second text comes to the call, and nothing was assigned to the method before. -/
theorem comesAlong_call :
    (Session.start chained).ComesAlong (Session.NeverAssigns chained climber "m") (call s) := by
  have hread : (Reading.ofText "d.m()").program? =
      .ok [.expr (.call (.property (.ident "d") "m") [])] := by cbv
  refine ⟨s, "d.m()", _, 10, .single ⟨climbingText, climbingProgram, 10, reads,
    Session.neverAssigns_of_admitted (admitted_program 10), Eval.passes_of_runOn hrun⟩, hread, ?_⟩
  have hnone {P : Nat → Prop} (j : Nat) (hj : j < 0) : P j := absurd hj (Nat.not_lt_zero j)
  exact .tail (.single (.part ⟨[], [], [], rfl, rfl, .nil s⟩ hnone))
    (.part ⟨[], [], [], rfl, rfl, .nil s⟩ hnone)

/-- So it comes to the property. -/
theorem comesAlong_property (hobject : s.scopes.get? 0 "d" = some (.object climber)) :
    (Session.start chained).ComesAlong (Session.NeverAssigns chained climber "m")
      ⟨10, .property (.object climber) "m", 0, s⟩ := by
  have hfirst : (call s).node.Reaches chained (runBody chained 10) 0 s 0 (.expr (.ident "d")) s :=
    ⟨[], [], [], rfl, rfl, .nil s⟩
  refine (comesAlong_call hrun).startsAfter (.part ⟨[.expr (.ident "d")], [], [.object climber],
    rfl, rfl, .cons (runOn_ident hobject) rfl (.nil s)⟩ fun j hj earlier u hreaches => ?_)
  obtain rfl := Nat.lt_one_iff.mp hj
  obtain ⟨rfl, rfl⟩ := hfirst.unique hreaches
  exact Session.neverAssigns_of_admitted (admitted_ident hrun)

end

/-- The call is given the object and its method. -/
theorem gives_call (hrun : (Block.evalProgram chained (runBody chained 10) 0 climbingProgram).runOn
      (Session.start chained).state = (some .null, s))
    (hobject : s.scopes.get? 0 "d" = some (.object climber)) :
    Part.Gives chained (runBody chained 10) 0
      ((call s).node.parts [.object climber, .function (handing 5)]) s
      [.object climber, .function (handing 5)] s := by
  have huntouched := Session.untouched_of_comesAlong (comesAlong_property hrun hobject)
  have hproperty : (readProperty chained 0 (.object climber) "m").runOn s =
      (some (.function (handing 5)), s) := runOn_readProperty_of_method huntouched rfl
  exact .cons (runOn_ident hobject) rfl (.cons hproperty rfl (.nil s))

/-- All definitions of the method call `super` once when the call runs. -/
theorem callsSuperOnce {s : State} {b : Evaluation}
    (hadmitted : Conduct.withoutReserved.Admitted chained (call s))
    (hinvokes : (call s).Invokes chained "m" climber derived b) {e' b' : Evaluation} {k : Class}
    (he' : Relation.ReflTransGen (Starts chained) (call s) e')
    (h' : e'.Invokes chained "m" climber k b') : b'.CallsSuperOnce chained "m" climber k := by
  have hdepth : (derived.definitionsAbove "m").length ≤ b.depth := by
    rw [← Nat.succ.inj hinvokes.runs.depth_eq]
    exact show 2 ≤ 9 by decide
  have hident : (Part.expr (.ident "d")).Forall fun e => ¬e.Calls := .inr not_false
  obtain ⟨hfirst, hothers⟩ :=
    hinvokes.callsSuperOnce rfl Conduct.not_name_this hadmitted handsOn_derived hdepth
  rcases invokes_of_started_call hident hinvokes he' h' with ⟨rfl, rfl⟩ | hinner
  · exact hfirst
  · exact hothers e' k b' hinner h'

end Climbing

open Climbing in
theorem super_calls_climb_the_chain_of_climbing :
    ∃ s b bodies, (Session.start chained).ComesTo (call s) ∧
      (call s).Invokes chained "m" climber derived b ∧
      b.state.ResolvesSuper chained b.scope climber derived ∧
      (∃ inner, Invokes chained "m" climber ⟨middle, [base]⟩
        ⟨9, .expr (.call (.property .super "m") []), b.scope, b.state⟩ inner) ∧
      (∃ name inner, Invokes chained name climber ⟨middle, [base]⟩
        ⟨9, .expr (.call (.property .super "m") []), b.scope, b.state⟩ inner) ∧
      RunsEach chained "m" climber (derived.definitions "m") (b :: bodies) := by
  obtain ⟨s, hrun, hobject⟩ := exists_run
  obtain ⟨hcalls, hbound, hmethods, -⟩ :=
    super_calls_climb_the_chain (show chained.methodResolution = .chain from rfl)
  -- the call runs the first definition
  obtain ⟨f, k, rest, b, hfound, -, hinvokes⟩ := hcalls 9 0 (.ident "d") "m" [] s s s _ climber
    (gives_call hrun hobject) (runOn_ident hobject) (comesAlong_property hrun hobject)
  obtain ⟨hfirst, -⟩ := List.cons.inj (definitions_derived.symm.trans hfound)
  obtain ⟨rfl, rfl⟩ := Prod.mk.inj hfirst
  have hcomes := (comesAlong_call hrun).comesTo
  obtain ⟨hscope, hsuper, hclimb⟩ := hmethods _ _ _ _ _ hcomes hinvokes
  obtain ⟨bodies, hruns, -⟩ := hclimb fun e' k b' he' h' _ =>
    callsSuperOnce hcomes.admitted hinvokes he' h'
  obtain ⟨hbinds, hresolves⟩ := hscope b.state (Eval.passes_start _ _)
  -- its body comes to a call of `super`, which is given a bound method
  have hdepth : 9 = b.depth := Nat.succ.inj hinvokes.runs.depth_eq
  have hnode : b.node = .block (superReturn "m") := hinvokes.node_eq rfl rfl
  obtain ⟨depth, node, scope, t⟩ := b
  subst hdepth hnode
  have habove : derived.definitionsAbove "m" =
      [(handing 2, ⟨middle, [base]⟩), (topmost, ⟨base, []⟩)] := rfl
  obtain ⟨p, u, hp, hgives⟩ := gives_superCall (show chained.walksSuperclasses = true from rfl)
    hbinds habove (runBody chained 9)
  have hstarted := started_superReturn chained "m" 9 scope t
  obtain ⟨f, k, rest, inner, habove', hinner⟩ := hsuper 8 "m" [] t u _ p hstarted hgives hp
  cases habove.symm.trans habove'
  obtain ⟨name, inner', -, hinner'⟩ := hbound 8 _ scope t u _ _ _ _ _
    (hcomes.started (hstarted.head hinvokes.runs.starts)) hgives rfl
  exact ⟨s, _, bodies, hcomes, hinvokes, hresolves, ⟨inner, hinner⟩, ⟨name, inner', hinner'⟩, hruns⟩

end Scripting
