import Scripting.Proofs.Run.Calls
import Scripting.Proofs.Run.Course
import Scripting.Proofs.Run.Ending
import Scripting.Proofs.Scopes.Lookup
import Scripting.Session

/-!
# What an evaluation leaves alone

Evaluation in a scope can run any function, with whatever scope it was made in. Still, most of a
state is safe from it: a call binds its names in a scope that was not there before, an assignment
writes where a name is bound already, and nothing is ever removed. So of the scopes that were there
only the one that a node is evaluated in can get new names, and under strict assignment only those
that the node declares.
-/

namespace Scripting

namespace State

/-- Whether an object has a property of its own under a name. -/
def hasProperty (s : State) (ident : Nat) (name : String) : Bool :=
  (s.properties[ident]?.bind (·.get? name)).isSome

/-- From `s` to `t` nothing is removed, no scope moves, and a scope that was there in `s` gets only
names that `may` lets it get. -/
structure Frame (may : Nat → String → Prop) (s t : State) : Prop where
  scopes : s.scopes.size ≤ t.scopes.size
  outer : ∀ i < s.scopes.size, t.scopes.outer? i = s.scopes.outer? i
  kept : ∀ i name, s.scopes.binds i name = true → t.scopes.binds i name = true
  added : ∀ i < s.scopes.size, ∀ name, t.scopes.binds i name = true →
    s.scopes.binds i name = true ∨ may i name
  objects : s.properties.size ≤ t.properties.size
  properties : ∀ i name, s.hasProperty i name = true → t.hasProperty i name = true
  printed : ∃ more, t.output = s.output ++ more

namespace Frame

variable {may may' : Nat → String → Prop} {s t u : State}

theorem refl (may : Nat → String → Prop) (s : State) : s.Frame may s :=
  ⟨Nat.le_refl _, fun _ _ => rfl, fun _ _ h => h, fun _ _ _ h => .inl h, Nat.le_refl _,
    fun _ _ h => h, "", String.append_empty.symm⟩

theorem trans (h : s.Frame may t) (h' : t.Frame may u) : s.Frame may u where
  scopes := Nat.le_trans h.scopes h'.scopes
  outer i hi := (h'.outer i (Nat.lt_of_lt_of_le hi h.scopes)).trans (h.outer i hi)
  kept i name hname := h'.kept i name (h.kept i name hname)
  added i hi name hname := by
    rcases h'.added i (Nat.lt_of_lt_of_le hi h.scopes) name hname with hname | hmay
    · exact h.added i hi name hname
    · exact .inr hmay
  objects := Nat.le_trans h.objects h'.objects
  properties i name hname := h'.properties i name (h.properties i name hname)
  printed := by
    obtain ⟨first, hfirst⟩ := h.printed
    obtain ⟨second, hsecond⟩ := h'.printed
    exact ⟨first ++ second, by rw [hsecond, hfirst, String.append_assoc]⟩

theorem mono (h : s.Frame may t) (hmay : ∀ i name, may i name → may' i name) :
    s.Frame may' t :=
  { h with added := fun i hi name hname => (h.added i hi name hname).imp_right (hmay i name) }

theorem course (may : Nat → String → Prop) : Course (Frame may) :=
  ⟨trans, fun _ => refl _ _⟩

/-! ### Acts -/

theorem withScopes {S : Scopes Value} (hsize : s.scopes.size ≤ S.size)
    (houter : ∀ i < s.scopes.size, S.outer? i = s.scopes.outer? i)
    (hkept : ∀ i name, s.scopes.binds i name = true → S.binds i name = true)
    (hadded : ∀ i < s.scopes.size, ∀ name, S.binds i name = true →
      s.scopes.binds i name = true ∨ may i name) :
    s.Frame may { s with scopes := S } :=
  ⟨hsize, houter, hkept, hadded, Nat.le_refl _, fun _ _ h => h, "", String.append_empty.symm⟩

theorem withProperties {properties : Array (Table Value)}
    (hsize : s.properties.size ≤ properties.size)
    (hkept : ∀ i name, s.hasProperty i name = true →
      ({ s with properties } : State).hasProperty i name = true) :
    s.Frame may { s with properties } :=
  ⟨Nat.le_refl _, fun _ _ => rfl, fun _ _ h => h, fun _ _ _ h => .inl h, hsize, hkept, "",
    String.append_empty.symm⟩

theorem withIdent (n : Nat) : s.Frame may { s with nextIdent := n } :=
  { refl may s with }

theorem withOutput (more : String) : s.Frame may { s with output := s.output ++ more } :=
  { refl may s with printed := ⟨more, rfl⟩ }

theorem bindName {scope : Nat} {name : String} (hmay : may scope name) (v : Value) :
    s.Frame may { s with scopes := s.scopes.set scope name v } := by
  refine withScopes (Nat.le_of_eq (Scopes.size_set ..).symm) (fun i _ => Scopes.outer?_set ..)
    (fun i other h => (Scopes.binds_set ..).mpr (.inl h)) fun i _ other h => ?_
  rcases (Scopes.binds_set ..).mp h with h | ⟨rfl, -, rfl⟩
  · exact .inl h
  · exact .inr hmay

/-- Rebinding a name where it is bound adds nothing. -/
theorem assignName {S : Scopes Value} {scope : Nat} {name : String} {v : Value}
    (h : s.scopes.assign? scope name v = some S) : s.Frame may { s with scopes := S } := by
  obtain ⟨i, hi, rfl⟩ := Option.map_eq_some_iff.mp h
  have hbound : s.scopes.binds i name = true :=
    List.find?_some (p := fun i => s.scopes.binds i name) hi
  refine withScopes (Nat.le_of_eq (Scopes.size_set ..).symm) (fun j _ => Scopes.outer?_set ..)
    (fun j other h => (Scopes.binds_set ..).mpr (.inl h)) fun j _ other h => ?_
  rcases (Scopes.binds_set ..).mp h with h | ⟨rfl, -, rfl⟩
  · exact .inl h
  · exact .inl hbound

theorem withScope (s : State) (outer : Nat) (table : Table Value) :
    s.Frame may (s.withScope outer table) := by
  have hne {i : Nat} (hi : i < s.scopes.size) : i ≠ s.scopes.size := Nat.ne_of_lt hi
  refine withScopes (Nat.le_of_lt ?_) (fun i hi => Scopes.outer?_addInside_of_ne _ _ _ (hne hi))
    (fun i name h => ?_) fun i hi name h => ?_
  · rw [Scopes.size_addInside]
    exact Nat.lt_succ_self _
  · rwa [Scopes.binds_addInside_of_ne _ _ _ (hne (Scopes.lt_size_of_binds h))]
  · rw [Scopes.binds_addInside_of_ne _ _ _ (hne hi)] at h
    exact .inl h

/-- What gets names in a scope that is new leaves alone what was there before. -/
theorem inScope {outer : Nat} {table : Table Value}
    (h : (s.withScope outer table).Frame (fun i _ => i = s.scopes.size) u) : s.Frame may u := by
  have hold : s.Frame (fun i _ => i = s.scopes.size) u := (withScope s outer table).trans h
  refine { hold with added := fun i hi name hname => ?_ }
  rcases hold.added i hi name hname with hname | rfl
  · exact .inl hname
  · exact absurd hi (Nat.lt_irrefl _)

theorem newObject (table : Table Value) :
    s.Frame may { s with properties := s.properties.push table } := by
  refine withProperties ?_ fun i name h => ?_
  · rw [Array.size_push]
    exact Nat.le_succ _
  · obtain ⟨v, hv⟩ := Option.isSome_iff_exists.mp h
    obtain ⟨row, hrow, hv⟩ := Option.bind_eq_some_iff.mp hv
    have hi : i < s.properties.size := (Array.getElem?_eq_some_iff.mp hrow).1
    simp only [hasProperty, Array.getElem?_push_lt hi] at h ⊢
    rwa [Array.getElem?_eq_getElem hi] at h

theorem setProperty (ident : Nat) (name : String) (v : Value) :
    s.Frame may { s with properties := s.properties.modify ident (·.set name v) } := by
  refine withProperties (Nat.le_of_eq (Array.size_modify ..).symm) fun i other h => ?_
  simp only [hasProperty, Array.getElem?_modify] at h ⊢
  split
  · cases hrow : s.properties[i]? with
    | none =>
        rw [hrow] at h
        cases h
    | some row =>
        rw [hrow] at h
        rw [Option.map_some, Option.bind_some, Table.get?_set]
        split
        · rfl
        · exact h
  · exact h

end Frame

end State

namespace Eval

variable {may : Nat → String → Prop} {s : State}

/-- Run on `s`, a computation leaves alone what `may` does not let it change. -/
abbrev Frames (may : Nat → String → Prop) (x : Eval α) (s : State) : Prop :=
  x.Follows (State.Frame may) (fun _ _ => True) s

namespace Frames

variable {α β : Type}

theorem pure (a : α) : (pure a : Eval α).Frames may s :=
  Follows.pure (.refl _ _) trivial

theorem act {f : State → α × State} (h : s.Frame may (f s).2) : (act f).Frames may s :=
  Follows.act (.refl _ _) h trivial

theorem bind {x : Eval α} {f : α → Eval β} (hx : x.Frames may s)
    (hf : ∀ a t, (f a).Frames may t) : (x >>= f).Frames may s :=
  Follows.bind (State.Frame.course may) hx fun a t _ _ => hf a t

theorem freshIdent : Eval.freshIdent.Frames may s :=
  act (.withIdent _)

theorem lookup (scope : Nat) (name : String) : (Eval.lookup scope name).Frames may s :=
  act (.refl _ _)

theorem ownProperty? (o : Object) (name : String) : (Eval.ownProperty? o name).Frames may s :=
  act (.refl _ _)

theorem bindName {scope : Nat} {name : String} (h : may scope name) (v : Value) :
    (Eval.bindName scope name v).Frames may s :=
  act (.bindName h v)

theorem assignName (scope : Nat) (name : String) (v : Value) :
    (Eval.assignName scope name v).Frames may s := by
  refine act ?_
  split
  · exact .refl _ _
  · next h => exact .assignName h

/-- What runs in a scope made for it and gets names only there leaves alone what was there. -/
theorem enterScope (outer : Nat) (table : Table Value) {f : Nat → Eval α}
    (hf : (f s.scopes.size).Frames (fun i _ => i = s.scopes.size) (s.withScope outer table)) :
    (Eval.enterScope outer table >>= f).Frames may s := by
  constructor
  · rintro t ((rfl | rfl) | ⟨_, u, hu, ht⟩)
    · exact .refl _ _
    · exact .withScope _ _ _
    · cases hu
      exact .inScope (hf.passes ht)
  · exact fun _ _ _ => trivial

theorem newArray (vs : List Value) : (Eval.newArray vs).Frames may s :=
  freshIdent.bind fun _ _ => pure _

theorem newHash (pairs : List (Value × Value)) : (Eval.newHash pairs).Frames may s :=
  freshIdent.bind fun _ _ => pure _

theorem lookupOrFail (scope : Nat) (name : String) (error : RuntimeError) :
    (Eval.lookupOrFail scope name error).Frames may s := by
  refine (lookup scope name).bind fun r t => ?_
  cases r <;> exact pure _

end Frames

end Eval

open Eval

/-- Bodies get names only in the scope in which they are run. -/
def RunBody.Framed (run : RunBody) : Prop :=
  ∀ (block : Block) (scope : Nat) (s : State), (run block scope).Frames (fun i _ => i = scope) s

section

variable {options : Options} {run : RunBody} {may : Nat → String → Prop} {s : State}

theorem frames_readProperty (scope : Nat) (target : Value) (name : String) :
    (readProperty options scope target name).Frames may s := by
  unfold readProperty
  split
  · refine (Frames.ownProperty? _ name).bind fun r t => ?_
    cases r with
    | some v => exact Frames.pure _
    | none =>
        dsimp only
        split
        · exact Frames.freshIdent.bind fun _ _ => Frames.pure _
        · exact Frames.pure _
  · exact Frames.pure _
  · split
    · split
      · exact Frames.pure _
      · refine (Frames.lookup scope "this").bind fun r t => ?_
        split
        · exact Frames.freshIdent.bind fun _ _ => Frames.pure _
        · exact Frames.pure _
    · exact Frames.pure _
  · exact Frames.pure _

theorem frames_builtin (b : Builtin) (args : List Value) : (b.call args).Frames may s := by
  have hprint : (args.forM fun arg => printLine arg.inspect).Frames may s :=
    Follows.forM (State.Frame.course may) args (.refl _ _) fun arg t _ => by
      refine Frames.act ?_
      rw [String.append_assoc]
      exact .withOutput _
  unfold Builtin.call
  split
  · exact hprint.bind fun _ _ => Frames.pure _
  · exact Frames.pure _
  · exact Frames.pure _
  · exact Frames.pure _
  · exact Frames.pure _
  · exact Frames.newArray _
  · exact Frames.pure _
  · exact Frames.pure _

theorem frames_callFunction (hrun : run.Framed) (f : Closure) (args : List Value)
    (receiver : Option Object) (owner : Option Class) :
    (callFunction options run f args receiver owner).Frames may s := by
  rw [callFunction_eq]
  exact Frames.enterScope _ _ ((hrun f.body _ _).bind fun _ _ => Frames.pure _)

theorem frames_callValue (hrun : run.Framed) (callee : Value) (args : List Value)
    (receiver : Option Object) : (callValue options run callee args receiver).Frames may s := by
  unfold callValue
  split
  · exact frames_callFunction hrun _ _ _ _
  · exact frames_callFunction hrun _ _ _ _
  · exact frames_builtin _ args
  · exact Frames.pure _

/-- From the moment when an object has been made, its constructor leaves alone what was there. -/
theorem passes_makeObject (hrun : run.Framed) {c : Class} {args : List Value} {t : State}
    (h : (makeObject options run (.cls c) args).Passes s t) :
    t = s ∨ (s.withObject c).Frame may t := by
  unfold makeObject at h
  rcases h with (rfl | rfl) | ⟨o, u, hu, ht⟩
  · exact .inl rfl
  · exact .inr (.refl _ _)
  · cases hu
    refine .inr (Follows.passes (Q := fun _ _ => True) ?_ ht)
    split
    · exact Frames.pure _
    · refine Frames.enterScope _ _ ((hrun _ _ _).bind fun result _ => ?_)
      split <;> exact Frames.pure _

theorem frames_makeObject (hrun : run.Framed) (callee : Value) (args : List Value) :
    (makeObject options run callee args).Frames may s := by
  cases callee with
  | cls c =>
      refine ⟨fun t ht => ?_, fun _ _ _ => trivial⟩
      rcases passes_makeObject hrun ht with rfl | hframe
      · exact .refl _ _
      · exact (State.Frame.newObject _).trans hframe
  | _ => exact Frames.pure _

/-- Only lenient assignment adds a name. -/
theorem frames_assignTo {scope : Nat} {name : String}
    (h : options.strictAssignment = false → may scope name) (v : Value) :
    (assignTo options scope name v).Frames may s := by
  refine (Frames.assignName scope name v).bind fun found t => ?_
  split
  · exact Frames.pure _
  · split
    · exact Frames.pure _
    · next hlenient =>
        exact (Frames.bindName (h (Bool.eq_false_iff.mpr hlenient)) v).bind fun _ _ =>
          Frames.pure _

theorem frames_bindClass {scope : Nat} {name : String} (h : may scope name)
    (methods : List (String × FunctionLiteral)) (ancestors : List ClassBody) :
    (Part.bindClass scope name methods ancestors).Frames may s := by
  have hclosures : (methods.mapM fun row : String × FunctionLiteral =>
      return (row.1,
        { ident := ← Eval.freshIdent, literal := row.2, scope := scope : Closure })).Frames may s :=
    Follows.mapM (State.Frame.course may) methods (.refl _ _) fun _ _ _ _ =>
      Frames.freshIdent.bind fun _ _ => Frames.pure _
  refine hclosures.bind fun closures t => ?_
  refine Frames.freshIdent.bind fun ident u => ?_
  exact (Frames.bindName h _).bind fun _ _ => Frames.pure _

end

namespace Part

/-- What a node may add to the scope that it is evaluated in. -/
def MayBind (options : Options) (scope : Nat) (node : Part) (i : Nat) (name : String) : Prop :=
  i = scope ∧ (options.strictAssignment = true → name ∈ node.declared)

variable {options : Options} {run : RunBody} {scope : Nat}

theorem frames_lastStep (hrun : run.Framed) {node : Part} {vs : List Value} {x : Eval Value}
    (h : LastStep options run scope node vs x) (s : State) :
    x.Frames (node.MayBind options scope) s := by
  cases h with
  | array => exact Frames.newArray vs
  | hash => exact Frames.newHash _
  | function literal => exact Frames.freshIdent.bind fun _ _ => Frames.pure _
  | lookup name _ => exact Frames.lookupOrFail scope name _
  | property name _ => exact frames_readProperty scope _ name
  | assignName name _ =>
      exact frames_assignTo (fun hlenient => ⟨rfl, fun h => nomatch hlenient.symm.trans h⟩) _
  | @assignProperty name v target _ _ =>
      cases target with
      | object o => exact (Frames.act (.setProperty _ _ _)).bind fun _ _ => Frames.pure _
      | _ => exact Frames.pure _
  | new _ _ => exact frames_makeObject hrun _ _
  | call _ _ _ => exact frames_callValue hrun _ _ _
  | bind hname _ =>
      exact (Frames.bindName ⟨rfl, fun _ => hname⟩ _).bind fun _ _ => Frames.pure _
  | bindClass hname _ => exact frames_bindClass ⟨rfl, fun _ => hname⟩ _ _
  | bare _ | given _ | returned _ | builtin _ | index _ _ | unary _ | binary _ _ | fail _
  | noClass _ => exact Frames.pure _

/-- A node is held to its frame: a part declares no more than its node does. -/
theorem held_frame (hrun : run.Framed) :
    Held options run scope (fun _ _ => True)
      (fun node => State.Frame (node.MayBind options scope)) fun _ _ => True where
  course _ := State.Frame.course _
  start _ := .refl _ _
  admitted _ _ := trivial
  value _ _ := trivial
  part_admitted _ _ _ := trivial
  part_course hpart h :=
    h.mono fun _ _ hname => ⟨hname.1, fun hstrict => declared_subset hpart (hname.2 hstrict)⟩
  finish _ _ hlength := frames_lastStep hrun (lastStep_finish hlength) _

end Part

/-- Bodies are framed, however deep they may nest. -/
theorem runBody_framed (options : Options) (depth : Nat) : (runBody options depth).Framed := by
  induction depth with
  | zero => exact fun _ _ s => Follows.tooDeep (.refl _ s)
  | succ depth ih =>
      intro block scope s
      have h : ((Part.block block).eval options (runBody options depth) scope).Frames
          ((Part.block block).MayBind options scope) s :=
        (Part.held_frame ih).follows_eval trivial
      exact h.mono (fun t ht => ht.mono fun _ _ hname => hname.1) fun _ _ _ _ => trivial

/-- A node leaves alone all but the scope that it is evaluated in. -/
theorem Part.frames_eval (options : Options) (depth scope : Nat) (node : Part) (s : State) :
    (node.eval options (runBody options depth) scope).Frames (node.MayBind options scope) s :=
  (held_frame (runBody_framed options depth)).follows_eval trivial

theorem frames_evalProgram (options : Options) (depth scope : Nat) (program : Block) (s : State) :
    (Block.evalProgram options (runBody options depth) scope program).Frames
      ((Part.block program).MayBind options scope) s :=
  (Part.frames_eval options depth scope (.block program) s).bind fun _ _ => Frames.pure _

/-- Through every moment of the evaluation of a node, be it as a program or not, every scope that
was there stays in the scope around it, no name is removed from a scope and no property from an
object, and only the scope that the node is evaluated in gets new names. Under strict assignment
these are names that the node declares outside bodies of functions and methods. -/
theorem scopes_are_framed (options : Options) (depth scope : Nat) {node : Part} {s t : State}
    (h : (node.eval options (runBody options depth) scope).Passes s t ∨
      ∃ program, node = .block program ∧
        (Block.evalProgram options (runBody options depth) scope program).Passes s t) :
    (∀ i < s.scopes.size, i < t.scopes.size ∧ t.scopes.outer? i = s.scopes.outer? i) ∧
      ((∀ i name, s.scopes.binds i name = true → t.scopes.binds i name = true) ∧
        ∀ ident name, s.hasProperty ident name = true → t.hasProperty ident name = true) ∧
      (∀ i < s.scopes.size, i ≠ scope → ∀ name, t.scopes.binds i name = s.scopes.binds i name) ∧
      (options.strictAssignment = true → scope < s.scopes.size →
        ∀ name, t.scopes.binds scope name = true → s.scopes.binds scope name = false →
          name ∈ node.declared) := by
  have hframe : s.Frame (node.MayBind options scope) t := by
    rcases h with h | ⟨program, rfl, h⟩
    · exact (Part.frames_eval options depth scope node s).passes h
    · exact (frames_evalProgram options depth scope program s).passes h
  refine ⟨fun i hi => ⟨Nat.lt_of_lt_of_le hi hframe.scopes, hframe.outer i hi⟩,
    ⟨hframe.kept, hframe.properties⟩, ?_, ?_⟩
  · intro i hi hscope name
    refine Bool.eq_iff_iff.mpr ⟨fun hname => ?_, hframe.kept i name⟩
    rcases hframe.added i hi name hname with hname | hmay
    · exact hname
    · exact absurd hmay.1 hscope
  · intro hstrict hscope name hname hnew
    rcases hframe.added scope hscope name hname with hold | hmay
    · cases hnew.symm.trans hold
    · exact hmay.2 hstrict

/-- A program that calls a function, which declares a name of its own and rebinds one of the
program's. -/
def countingProgram : Block :=
  [.letIn "count" (.int 0 "0"),
    .letIn "add" (.function (.mk ["n"] [.letIn "sum" (.binary (.ident "count") "+" (.ident "n")),
      .expr (.assign (.ident "count") (.ident "sum"))])),
    .expr (.call (.ident "add") [.int 2 "2"])]

theorem scopes_are_framed_of_countingProgram :
    ∃ t, (Block.evalProgram {} (runBody {} 2) 0 countingProgram).Passes (Session.start {}).state t ∧
      t.scopes.binds 1 "sum" = true ∧
      ∀ name, t.scopes.binds 0 name = true → name = "count" ∨ name = "add" := by
  let s := (Session.start {}).state
  let x := Block.evalProgram {} (runBody {} 2) 0 countingProgram
  have hpasses : x.Passes s (x.runOn s).2 := x.passes_end s
  obtain ⟨-, -, -, hdeclared⟩ := scopes_are_framed {} 2 0 (.inr ⟨countingProgram, rfl, hpasses⟩)
  refine ⟨_, hpasses, by decide +kernel, fun name hname => ?_⟩
  have hmem := hdeclared rfl (by decide) name hname (by rfl)
  simpa [countingProgram, Part.declared, Block.declared, Stmt.declared, Expr.declared,
    Expr.declaredIn] using hmem

end Scripting
