import Mathlib
import Scripting.Proofs.Run.Methods
import Scripting.Proofs.Session.History

/-!
# The objects of a session

In a session in which only texts run, every object is made by a script. So every object that a
visited state stores has its methods, and without a search of ancestors no bound method is ever
made.
-/

namespace Scripting

/-- The object that a value is or was looked up through. -/
def Value.instance? : Value → Option Object
  | .object o | .boundMethod _ _ o _ => some o
  | _ => none

/-- What the evaluator runs: nodes, the last steps of nodes, and programs. -/
inductive Options.Runs (options : Options) : Eval Value → Prop where
  | node (depth scope : Nat) (node : Part) :
      Runs options (node.eval options (runBody options depth) scope)
  | lastStep (depth scope : Nat) (node : Part) (vs : List Value) {x : Eval Value}
      (h : LastStep options (runBody options depth) scope node vs x) : Runs options x
  | program (depth scope : Nat) (program : Block) :
      Runs options (Block.evalProgram options (runBody options depth) scope program)

/-- The evaluator can lead from a state to another, by whatever it runs. -/
def State.Later (options : Options) : State → State → Prop :=
  Relation.ReflTransGen fun s t => ∃ x, options.Runs x ∧ x.Passes s t

theorem State.Later.grows {options : Options} {s t : State} (h : State.Later options s t) :
    s.Grows t := by
  induction h with
  | refl => exact .refl _ _
  | tail _ hstep ih =>
      obtain ⟨x, hx, hpasses⟩ := hstep
      refine ih.trans ?_
      cases hx with
      | node depth scope node =>
          exact ((Part.frames_eval options depth scope node _).passes hpasses).mono fun _ _ _ =>
            trivial
      | lastStep depth scope node vs h =>
          exact ((Part.frames_lastStep (runBody_framed options depth) h _).passes hpasses).mono
            fun _ _ _ => trivial
      | program depth scope program =>
          exact ((frames_evalProgram options depth scope program _).passes hpasses).mono
            fun _ _ _ => trivial

namespace State

variable {s : State}

theorem Holds.equips {walks : Bool} {v : Value} (h : s.Holds walks v) :
    v.Everywhere fun w => ∀ o ∈ w.instance?, s.Equips o := by
  refine h.mono fun w hw o ho => ?_
  cases w with
  | object o' => exact Option.mem_some_iff.mp ho ▸ hw
  | boundMethod i f o' owner => exact Option.mem_some_iff.mp ho ▸ hw.2
  | _ => cases ho

/-- Where ancestors are not searched, no bound method is supported. -/
theorem Holds.type_ne_boundMethod {v : Value} (h : s.Holds false v) :
    v.Everywhere fun w => w.type ≠ .boundMethod := by
  refine h.mono fun w hw htype => ?_
  cases w with
  | boundMethod i f o owner => cases hw.1
  | _ => cases htype

theorem Holds.not_mem_types {e : RuntimeError} (h : s.Holds false (.failed e)) :
    .boundMethod ∉ e.types := by
  intro hmem
  rcases h.head _ hmem with hwalks | hne
  · cases hwalks
  · exact hne rfl

end State

theorem Session.sound_start (options : Options) (walks : Bool) :
    (Session.start options).state.Sound walks :=
  State.Stores.initial.withScopes State.Stores.initial.1.addRoot

theorem Session.Visits.sound {options : Options} {s : State} (h : (start options).Visits s) :
    s.Sound options.walksSuperclasses :=
  h.of_kept (sound_start options _) fun depth program _ _ hs ht =>
    ((sustains_evalProgram options depth _ program hs).passes ht).2

theorem Session.runOn_of_runWithin {session : Session} {depth : Nat} {text : String} {v : Value}
    (h : (session.runWithin depth text).1 = .ok v) :
    ∃ program t, (Block.evalProgram session.options (runBody session.options depth)
      session.root program).runOn session.state = (some v, t) := by
  cases hread : (Reading.ofText text).program? with
  | error failure =>
      rw [runWithin_of_not_read hread] at h
      cases h
  | ok program => exact ⟨program, runOn_of_read hread h⟩

/-- Making an object gives that object, unless its constructor ends in an error. -/
theorem eq_object_of_makeObject {options : Options} {run : RunBody} {c : Class} {args : List Value}
    {s t : State} {v : Value}
    (h : (makeObject options run (.cls c) args).runOn s = (some v, t)) :
    v = .object ⟨s.properties.size, c⟩ ∨ v.isError = true := by
  have hobject :
      (Eval.newObject c (c.own.methods.map fun row => (row.1, .function row.2))).runOn s =
        (some ⟨s.properties.size, c⟩, s.withObject c) := rfl
  simp only [makeObject] at h
  rw [Eval.runOn_bind_of_some hobject] at h
  split at h
  · cases h
    exact .inl rfl
  · next method owner _ =>
      rw [Eval.runOn_bind_of_some (Eval.runOn_enterScope _ _ _), Eval.runOn_bind] at h
      split at h
      · next w u _ =>
          cases herror : w.isError with
          | true =>
              rw [herror, if_pos rfl] at h
              cases h
              exact .inr herror
          | false =>
              rw [herror, if_neg Bool.false_ne_true] at h
              cases h
              exact .inl rfl
      · cases h

/-- In a session in which only texts run, every object that is stored anywhere has a property for
every method of its own class. From the moment when an object is made, and so from the start of its
constructor on, it has them at every later moment. Where ancestors are not searched, no bound method
is ever stored, given by an expression or by a text, and no error names their type. -/
theorem objects_keep_their_methods (options : Options) :
    (∀ s, (Session.start options).Visits s →
        s.Stores fun v => v.Everywhere fun w => ∀ o ∈ w.instance?, s.Equips o) ∧
      (∀ (depth : Nat) (c : Class) (args : List Value) (s : State),
        (∀ (v : Value) (t : State),
          (makeObject options (runBody options depth) (.cls c) args).runOn s = (some v, t) →
            v = .object ⟨s.properties.size, c⟩ ∨ v.isError = true) ∧
        ∀ t u : State,
          (makeObject options (runBody options depth) (.cls c) args).Passes s t → t ≠ s →
            State.Later options t u → u.Equips ⟨s.properties.size, c⟩) ∧
      (options.methodResolution = .own → ∀ s, (Session.start options).Visits s →
        (s.Stores fun v => v.Everywhere fun w => w.type ≠ .boundMethod) ∧
          (∀ (depth scope : Nat) (e : Expr) (v : Value) (t : State),
            (e.eval options (runBody options depth) scope).runOn s = (some v, t) →
              v.Everywhere fun w => w.type ≠ .boundMethod) ∧
          ∀ (depth : Nat) (text : String) (v : Value),
            ({ Session.start options with state := s }.runWithin depth text).1 = .ok v →
              (v.Everywhere fun w => w.type ≠ .boundMethod) ∧
                ∀ e, v = .failed e → .boundMethod ∉ e.types) := by
  refine ⟨fun s hs => hs.sound.mono fun v hv => hv.equips, ?_, ?_⟩
  · intro depth c args s
    refine ⟨fun v t h => eq_object_of_makeObject h, fun t u hpasses hne hlater => ?_⟩
    have hgrow : (s.withObject c).Grows t :=
      (passes_makeObject (runBody_framed options depth) hpasses).resolve_left hne
    exact (s.equips_newObject c).grow (hgrow.trans hlater.grows)
  · intro hown s hs
    have hwalks : options.walksSuperclasses = false := by rw [Options.walksSuperclasses, hown]; rfl
    have hsound : s.Sound false := hwalks ▸ hs.sound
    refine ⟨hsound.mono fun v hv => hv.type_ne_boundMethod, ?_, ?_⟩
    · intro depth scope e v t hv
      have hnode : ((Part.expr e).eval options (runBody options depth) scope).Sustains
          options.walksSuperclasses s := Part.sustains_eval options depth scope hs.sound trivial
      have hholds := (hnode.result hv).2
      rw [hwalks] at hholds
      exact hholds.type_ne_boundMethod
    · intro depth text v hv
      obtain ⟨program, t, hrun⟩ := Session.runOn_of_runWithin hv
      have hholds := ((sustains_evalProgram options depth _ program hs.sound).result hrun).2
      rw [hwalks] at hholds
      refine ⟨hholds.type_ne_boundMethod, ?_⟩
      rintro e rfl
      exact hholds.not_mem_types

/-- A text that overwrites a method of an object, in its constructor and afterwards. -/
def overwritingText : String :=
  "class A \x7b let constructor = func() \x7b this.m = 1; return 5 \x7d " ++
    "let m = func() \x7b return 2 \x7d \x7d let a = new A(); a.m = 3; a.m"

theorem objects_keep_their_methods_of_overwriting :
    ((Session.start {}).run overwritingText).1 = .ok (.integer 3) ∧
      ∃ s, (Session.start {}).Visits s ∧
        (s.scopes.get? 0 "a").map Value.type = some .object ∧
        s.Stores fun v => v.Everywhere fun w => w.type ≠ .boundMethod := by
  have hvisits : (Session.start {}).Visits ((Session.start {}).run overwritingText).2.state :=
    (Session.start {}).visits_runAll (Options.depthLimit {}) [overwritingText]
  have hrun : (fun after : Except Failure Value × Session =>
      (after.1, (after.2.state.scopes.get? 0 "a").map Value.type))
        ((Session.start {}).run overwritingText) = (.ok (.integer 3), some .object) := by cbv
  obtain ⟨hresult, hobject⟩ := Prod.mk.inj hrun
  obtain ⟨-, -, hnone⟩ := objects_keep_their_methods {}
  exact ⟨hresult, _, hvisits, hobject, (hnone rfl _ hvisits).1⟩

end Scripting
