import Mathlib
import Scripting.Session
import Scripting.Proofs.Reading.WellMade
import Scripting.Proofs.Run.Evaluation

/-!
# Runs of well-made programs

A text that is read without faults gives a well-made program, and every function that its run makes
comes from that program. So no run ends in one of the two errors that only a faulty tree can bring
about: that a part is missing, and that something is assigned to which cannot be.
-/

namespace Scripting

/-- The errors that only a faulty tree can bring about. -/
def RuntimeError.BlamesTree (e : RuntimeError) : Prop :=
  e = missingNode ∨ ∃ printed, e = invalidTarget printed

/-- The wording of every other error begins differently. -/
theorem RuntimeError.message_of_not_blamesTree {e : RuntimeError} (h : ¬e.BlamesTree) :
    ¬"unknown node type: ".toList <+: e.message.toList ∧
      ¬"invalid left-hand side of assignment: ".toList <+: e.message.toList := by
  unfold message
  split
  case h_1 => exact absurd (.inl rfl) h
  case h_5 printed => exact absurd (.inr ⟨printed, rfl⟩) h
  all_goals simp

namespace Value

/-- A value that is no signal and whose functions are well made. -/
def IsSound : Value → Prop
  | function f => f.literal.Forall Expr.IsSound
  | cls c => ∀ f ∈ c.closures, f.literal.Forall Expr.IsSound
  | object o => ∀ f ∈ o.cls.closures, f.literal.Forall Expr.IsSound
  | boundMethod _ f o owner =>
      f.literal.Forall Expr.IsSound ∧ (∀ g ∈ o.cls.closures, g.literal.Forall Expr.IsSound) ∧
        ∀ g ∈ owner.closures, g.literal.Forall Expr.IsSound
  | returned _ | failed _ => False
  | _ => True

end Value

theorem invariant_isSound :
    Invariant Value.IsSound (fun e => ¬e.BlamesTree) Expr.IsSound where
  ordinary v hv := by
    cases v with
    | returned w => exact absurd hv id
    | failed e => exact absurd hv id
    | _ => rfl
  literal _ _ _ := trivial
  wrapped _ := trivial
  length _ := trivial
  string _ := trivial
  boolean _ := trivial
  null := trivial
  builtin _ := trivial
  array _ _ _ := trivial
  hash _ _ _ := trivial
  function _ := Iff.rfl
  cls _ := Iff.rfl
  object _ := Iff.rfl
  boundMethod _ _ _ _ := Iff.rfl
  missing h := absurd h id
  unassignable target value h htarget := by
    have hassignable : target.isAssignable = true := h
    rw [htarget] at hassignable
    cases hassignable
  runtime e hmissing htarget := by
    rintro (h | ⟨printed, h⟩)
    · exact hmissing h
    · exact htarget printed h

theorem Reading.program?_eq_ok {reading : Reading} {program : Block}
    (h : reading.program? = .ok program) : reading.errors = [] ∧ reading.program = program := by
  rw [program?] at h
  split at h
  · cases h
  · split at h
    · next hempty =>
        cases h
        exact ⟨List.isEmpty_iff.mp hempty, rfl⟩
    · cases h

theorem Session.stores_start (options : Options) :
    (Session.start options).state.Stores fun v => v.Everywhere Value.IsSound :=
  State.Stores.initial.withScopes State.Stores.initial.1.addRoot

namespace Session

theorem evaluateWithin_eq_ok {session : Session} {depth : Nat} {program : Block} {v : Value} :
    (session.evaluateWithin depth program).1 = .ok v ↔
      ((Block.evalProgram session.options (runBody session.options depth) session.root
        program).runOn session.state).1 = some v := by
  unfold evaluateWithin perform
  cases h : ((Block.evalProgram session.options (runBody session.options depth) session.root
    program).runOn session.state).1 <;> simp [h]

theorem not_blamesTree {options : Options} {depth : Nat} {program : Block} {error : RuntimeError}
    (hprogram : Block.Forall Expr.IsSound program)
    (h : ((start options).evaluateWithin depth program).1 = .ok (.failed error)) :
    ¬error.BlamesTree := by
  have hkeeps := invariant_isSound.keeps_program options depth (start options).root hprogram
  have hvalue := evaluateWithin_eq_ok.mp h
  cases hkeeps.result (stores_start options) hvalue with
  | ordinary h => exact absurd h.head id
  | failed h => exact h

theorem run_eq_ok {session : Session} {text : String} {v : Value}
    (h : (session.run text).1 = .ok v) :
    ∃ program, (Reading.ofText text).program? = .ok program ∧
      (session.evaluateWithin session.options.depthLimit program).1 = .ok v := by
  unfold run at h
  split at h
  · cases h
  · next program hprogram => exact ⟨program, hprogram, h⟩

end Session

/-- A reading without faults gives a well-made program, and a run of a text that is read without
faults, however deep bodies may nest, ends in no error that blames the tree. -/
theorem faultless_programs_are_well_made :
    (∀ ts : List Token, DigitRows ts → (Reading.ofTokens ts).errors = [] →
        Block.Forall Expr.IsSound (Reading.ofTokens ts).program) ∧
      ∀ (text : String) (options : Options) (error : RuntimeError),
        (∀ (depth : Nat) (program : Block), (Reading.ofText text).program? = .ok program →
          ((Session.start options).evaluateWithin depth program).1 = .ok (.failed error) →
            ¬"unknown node type: ".toList <+: error.message.toList ∧
              ¬"invalid left-hand side of assignment: ".toList <+: error.message.toList) ∧
        (((Session.start options).run text).1 = .ok (.failed error) →
          ¬"unknown node type: ".toList <+: error.message.toList ∧
            ¬"invalid left-hand side of assignment: ".toList <+: error.message.toList) := by
  have hwithin : ∀ (text : String) (options : Options) (error : RuntimeError) (depth : Nat)
      (program : Block), (Reading.ofText text).program? = .ok program →
        ((Session.start options).evaluateWithin depth program).1 = .ok (.failed error) →
          ¬"unknown node type: ".toList <+: error.message.toList ∧
            ¬"invalid left-hand side of assignment: ".toList <+: error.message.toList := by
    intro text options error depth program hprogram herror
    obtain ⟨hfaultless, rfl⟩ := Reading.program?_eq_ok hprogram
    have hsound := Reading.forall_isSound hfaultless (digitRows_tokenize text)
    exact RuntimeError.message_of_not_blamesTree (Session.not_blamesTree hsound herror)
  refine ⟨fun ts hts hfaultless => Reading.forall_isSound hfaultless hts, ?_⟩
  intro text options error
  constructor
  · exact hwithin text options error
  · intro h
    obtain ⟨program, hprogram, herror⟩ := Session.run_eq_ok h
    exact hwithin text options error options.depthLimit program hprogram herror

/-- A text whose run ends in an error, though nothing is wrong with its tree. -/
def bareReturnText : String :=
  "let f = func(a) \x7b if (a) \x7b return; \x7d \x7d; f(07) + 1"

theorem faultless_programs_are_well_made_of_bareReturn :
    (Reading.ofTokens (tokenize bareReturnText)).errors = [] ∧
      Block.Forall Expr.IsSound (Reading.ofTokens (tokenize bareReturnText)).program ∧
        ((Session.start {}).run bareReturnText).1 =
            .ok (.failed (.typeMismatch .null "+" .integer)) ∧
          ¬"unknown node type: ".toList <+: "type mismatch: NULL + INTEGER".toList := by
  have herrors : (Reading.ofTokens (tokenize bareReturnText)).errors = [] := by cbv
  have hrun : ((Session.start {}).run bareReturnText).1 =
      .ok (.failed (.typeMismatch .null "+" .integer)) := by cbv
  obtain ⟨hsound, hmessage⟩ := faultless_programs_are_well_made
  exact ⟨herrors, hsound _ (digitRows_tokenize bareReturnText) herrors, hrun,
    ((hmessage bareReturnText {} _).2 hrun).1⟩

end Scripting
