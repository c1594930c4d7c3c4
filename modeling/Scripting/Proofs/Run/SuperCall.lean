import Scripting.Proofs.Run.Invocation

/-!
# Calls of methods

There are three ways to call a method for an object. A property of the object that nothing was
assigned to is looked up in its class; a bound method brings its object and its class along; and
`super` looks a method up above the class that the running method was found on. Whatever the way,
the class that the method is run for is the one that it was found on.
-/

namespace Scripting

open Eval

/-- Under a name an object has what it was made with: the method of its own class, if there is one,
and otherwise nothing. -/
def State.Untouched (s : State) (o : Object) (name : String) : Prop :=
  s.properties[o.ident]?.bind (·.get? name) =
    (o.cls.own.methods.get? name).map Value.function

section

variable {options : Options} {run : RunBody} {scope : Nat} {s t : State} {o : Object}
  {c p k : Class} {f : Closure} {name : String} {rest : List (Closure × Class)}

/-! ### Looking methods up -/

theorem runOn_readProperty_of_method (huntouched : s.Untouched o name)
    (h : o.cls.own.methods.get? name = some f) :
    (readProperty options scope (.object o) name).runOn s = (some (.function f), s) := by
  have hown : (ownProperty? o name).runOn s = (some (some (.function f)), s) :=
    congrArg (fun found => (some found, s)) (huntouched.trans (by rw [h]; rfl))
  rw [readProperty, runOn_bind_of_some hown]
  rfl

/-- A method that only an ancestor has is bound to the object. -/
theorem runOn_readProperty_of_inherited (hwalks : options.walksSuperclasses = true)
    (huntouched : s.Untouched o name) (h : o.cls.own.methods.get? name = none)
    (hfound : o.cls.definitions name = (f, k) :: rest) :
    (readProperty options scope (.object o) name).runOn s =
      (some (.boundMethod s.nextIdent f o k), { s with nextIdent := s.nextIdent + 1 }) := by
  have hown : (ownProperty? o name).runOn s = (some none, s) :=
    congrArg (fun found => (some found, s)) (huntouched.trans (by rw [h]; rfl))
  have hmethod : o.cls.findMethod? options.walksSuperclasses name = some (f, k) := by
    rw [hwalks, Class.findMethod?_eq_head?, hfound, List.head?_cons]
  rw [readProperty, runOn_bind_of_some hown, hmethod]
  rfl

theorem runOn_readProperty_of_nil (hwalks : options.walksSuperclasses = true)
    (huntouched : s.Untouched o name) (hfound : o.cls.definitions name = []) :
    (readProperty options scope (.object o) name).runOn s =
      (some (.failed (.propertyNotFound name)), s) := by
  have hmethod : o.cls.findMethod? options.walksSuperclasses name = none := by
    rw [hwalks, Class.findMethod?_eq_head?, hfound, List.head?_nil]
  have hnone : o.cls.own.methods.get? name = none := by
    cases h : o.cls.own.methods.get? name with
    | none => rfl
    | some f =>
        rw [Class.definitions_of_get? h] at hfound
        cases hfound
  have hown : (ownProperty? o name).runOn s = (some none, s) :=
    congrArg (fun found => (some found, s)) (huntouched.trans (by rw [hnone]; rfl))
  rw [readProperty, runOn_bind_of_some hown, hmethod]
  rfl

/-- A method that `super` finds is bound to the object that `this` is. -/
theorem runOn_readProperty_cls (hwalks : options.walksSuperclasses = true)
    (hthis : s.scopes.get? scope "this" = some (.object o))
    (hp : p.definitions name = (f, k) :: rest) :
    (readProperty options scope (.cls p) name).runOn s =
      (some (.boundMethod s.nextIdent f o k), { s with nextIdent := s.nextIdent + 1 }) := by
  have hfound : p.findMethod? true name = some (f, k) := by
    rw [Class.findMethod?_eq_head?, hp, List.head?_cons]
  have hlookup : (lookup scope "this").runOn s = (some (some (.object o)), s) :=
    congrArg (fun found => (some found, s)) hthis
  rw [readProperty, if_pos hwalks, hfound]
  dsimp only
  rw [runOn_bind_of_some hlookup]
  rfl

theorem runOn_readProperty_cls_of_nil (hwalks : options.walksSuperclasses = true)
    (hp : p.definitions name = []) :
    (readProperty options scope (.cls p) name).runOn s =
      (some (.failed (.propertyNotFound name)), s) := by
  have hfound : p.findMethod? true name = none := by
    rw [Class.findMethod?_eq_head?, hp, List.head?_nil]
  rw [readProperty, if_pos hwalks, hfound]
  rfl

theorem State.BindsMethod.runOn_super (h : s.BindsMethod scope o c) (hp : c.superclass? = some p) :
    (Expr.super.eval options run scope).runOn s = (some (.cls p), s) := by
  have hlookup : (lookup scope "super").runOn s = (some (some (.cls p)), s) :=
    congrArg (fun found => (some found, s)) (h.get?_super hp)
  rw [Expr.eval, runOn_bind_of_some hlookup]
  rfl

/-- In the scope of a method `super` finds the nearest definition above the class of the method. -/
theorem State.BindsMethod.runOn_superProperty (hwalks : options.walksSuperclasses = true)
    (h : s.BindsMethod scope o c) (hp : c.superclass? = some p)
    (habove : c.definitionsAbove name = (f, k) :: rest) :
    ((Expr.property .super name).eval options run scope).runOn s =
      (some (.boundMethod s.nextIdent f o k), { s with nextIdent := s.nextIdent + 1 }) := by
  rw [Expr.eval, onValue, runOn_bind_of_some (h.runOn_super hp)]
  exact runOn_readProperty_cls hwalks h.get?_this
    ((Class.definitionsAbove_of_superclass hp).symm.trans habove)

theorem State.BindsMethod.runOn_superProperty_of_nil (hwalks : options.walksSuperclasses = true)
    (h : s.BindsMethod scope o c) (hp : c.superclass? = some p)
    (habove : c.definitionsAbove name = []) :
    ((Expr.property .super name).eval options run scope).runOn s =
      (some (.failed (.propertyNotFound name)), s) := by
  rw [Expr.eval, onValue, runOn_bind_of_some (h.runOn_super hp)]
  exact runOn_readProperty_cls_of_nil hwalks
    ((Class.definitionsAbove_of_superclass hp).symm.trans habove)

end

/-- What `this` and `super` give in the scope of a method: the object, the superclass of the class
that the method was found on, and for a name the nearest method above that class, bound to the
object, or the error that there is none. -/
structure State.ResolvesSuper (options : Options) (s : State) (scope : Nat) (o : Object)
    (c : Class) : Prop where
  this : ∀ run, (Expr.this.eval options run scope).runOn s = (some (.object o), s)
  super : ∀ run p, c.superclass? = some p →
    (Expr.super.eval options run scope).runOn s = (some (.cls p), s)
  nearest : ∀ run name f k rest, c.definitionsAbove name = (f, k) :: rest →
    ((Expr.property .super name).eval options run scope).runOn s =
      (some (.boundMethod s.nextIdent f o k), { s with nextIdent := s.nextIdent + 1 })
  missing : ∀ run name p, c.superclass? = some p → c.definitionsAbove name = [] →
    ((Expr.property .super name).eval options run scope).runOn s =
      (some (.failed (.propertyNotFound name)), s)

theorem State.BindsMethod.resolvesSuper {options : Options} {s : State} {scope : Nat} {o : Object}
    {c : Class} (hwalks : options.walksSuperclasses = true) (h : s.BindsMethod scope o c) :
    s.ResolvesSuper options scope o c where
  this run := by
    have hlookup : (lookup scope "this").runOn s = (some (some (.object o)), s) :=
      congrArg (fun found => (some found, s)) h.get?_this
    rw [Expr.eval, runOn_bind_of_some hlookup]
    rfl
  super _ _ hp := h.runOn_super hp
  nearest _ _ _ _ _ habove := by
    obtain ⟨⟨p, hp⟩, -⟩ := Class.definitionsAbove_eq_cons habove
    exact h.runOn_superProperty hwalks hp habove
  missing _ _ _ hp habove := h.runOn_superProperty_of_nil hwalks hp habove

/-! ### Calling them -/

namespace Part

/-- The value that a call calls, among the values of its parts. -/
def callee? : Part → List Value → Option Value
  | expr (.call (.property _ _) _), _ :: function :: _ => some function
  | expr (.call _ _), function :: _ => some function
  | _, _ => none

variable {options : Options} {run : RunBody} {scope : Nat} {s t : State} {vs : List Value}
  {object : Expr} {args : List Expr} {name : String}

/-- What the parts of a call of a property gave: the value that has the property, the function that
was found there, and the arguments. -/
theorem gives_callProperty
    (h : Gives options run scope ((expr (.call (.property object name) args)).parts vs) s vs t) :
    ∃ target function ws u w, vs = target :: function :: ws ∧
      (object.eval options run scope).runOn s = (some target, u) ∧
        (readProperty options scope target name).runOn u = (some function, w) ∧
          function.isSignal = false := by
  cases vs with
  | nil => cases h
  | cons target vs =>
      cases h with
      | cons htarget _ hrest =>
          cases hrest with
          | cons hfunction hsignal _ =>
              exact ⟨target, _, _, _, _, rfl, htarget, hfunction, hsignal⟩

end Part

namespace Evaluation

open Scripting.Part

variable {options : Options} {depth scope : Nat} {s t u : State} {vs : List Value}
  {object : Expr} {args : List Expr} {name : String} {o : Object} {c p : Class}

/-- A property of an object to which nothing was assigned calls the first definition of the method
from the class of the object upwards. -/
theorem exists_invokes_of_untouched (hwalks : options.walksSuperclasses = true)
    (hgives : Gives options (runBody options (depth + 1)) scope
      ((expr (.call (.property object name) args)).parts vs) s vs t)
    (hobject : (object.eval options (runBody options (depth + 1)) scope).runOn s =
      (some (.object o), u))
    (huntouched : u.Untouched o name) :
    ∃ f k rest b, o.cls.definitions name = (f, k) :: rest ∧
      (⟨depth + 1, .expr (.call (.property object name) args), scope, s⟩ : Evaluation).Invokes
        options name o k b := by
  obtain ⟨target, function, ws, u', w, rfl, htarget, hfunction, hsignal⟩ :=
    gives_callProperty hgives
  cases hobject.symm.trans htarget
  cases hmethod : o.cls.own.methods.get? name with
  | some f =>
      cases (runOn_readProperty_of_method huntouched hmethod).symm.trans hfunction
      obtain ⟨b, hb⟩ := exists_invokes (i := ⟨f, ws, o, o.cls⟩) hwalks hgives rfl hmethod
      exact ⟨f, o.cls, _, b, Class.definitions_of_get? hmethod, hb⟩
  | none =>
      cases hfound : o.cls.definitions name with
      | nil =>
          cases (runOn_readProperty_of_nil hwalks huntouched hfound).symm.trans hfunction
          cases hsignal
      | cons first rest =>
          obtain ⟨f, k⟩ := first
          cases (runOn_readProperty_of_inherited hwalks huntouched hmethod hfound).symm.trans
            hfunction
          obtain ⟨b, hb⟩ := exists_invokes (i := ⟨f, ws, o, k⟩) hwalks hgives rfl
            (Class.definitions_eq_cons hfound).1
          exact ⟨f, k, rest, b, rfl, hb⟩

/-- A bound method calls a definition of the class that it brings along. -/
theorem exists_invokes_of_boundMethod {κ : Conduct} (hwalks : options.walksSuperclasses = true)
    {node : Part} (he : κ.Admitted options ⟨depth + 1, node, scope, s⟩)
    (hgives : Gives options (runBody options (depth + 1)) scope (node.parts vs) s vs t)
    {ident : Nat} {f : Closure} (hcallee : node.callee? vs = some (.boundMethod ident f o c)) :
    ∃ name b, c.own.methods.get? name = some f ∧
      (⟨depth + 1, node, scope, s⟩ : Evaluation).Invokes options name o c b := by
  have hvs := (he.gives hgives).2
  unfold callee? at hcallee
  split at hcallee
  · next target function ws =>
      cases hcallee
      obtain ⟨-, -, -, name, hmethod⟩ := (hvs _ (List.mem_cons_of_mem _ List.mem_cons_self)).head
      obtain ⟨b, hb⟩ := exists_invokes (i := ⟨f, ws, o, c⟩) hwalks hgives rfl hmethod
      exact ⟨name, b, hmethod, hb⟩
  · next callee args' function ws hnot =>
      cases hcallee
      obtain ⟨-, -, -, name, hmethod⟩ := (hvs _ List.mem_cons_self).head
      have hinvocation : (expr (.call callee args')).invocation? options
          (.boundMethod ident f o c :: ws) t = some ⟨f, ws, o, c⟩ := by
        rw [invocation?]
        · rfl
        · exact hnot
      obtain ⟨b, hb⟩ := exists_invokes hwalks hgives hinvocation hmethod
      exact ⟨name, b, hmethod, hb⟩
  · cases hcallee

/-- In the scope of a method `super` calls the nearest definition above the class of the method, for
the same object. -/
theorem exists_invokes_of_super (hwalks : options.walksSuperclasses = true)
    (hbinds : s.BindsMethod scope o c) (hp : c.superclass? = some p)
    (hgives : Gives options (runBody options (depth + 1)) scope
      ((expr (.call (.property .super name) args)).parts vs) s vs t) :
    ∃ f k rest b, c.definitionsAbove name = (f, k) :: rest ∧
      (⟨depth + 1, .expr (.call (.property .super name) args), scope, s⟩ : Evaluation).Invokes
        options name o k b := by
  obtain ⟨target, function, ws, u, w, rfl, htarget, hfunction, hsignal⟩ :=
    gives_callProperty hgives
  cases (hbinds.runOn_super hp).symm.trans htarget
  cases habove : c.definitionsAbove name with
  | nil =>
      have hnil := (Class.definitionsAbove_of_superclass hp).symm.trans habove
      cases (runOn_readProperty_cls_of_nil hwalks hnil).symm.trans hfunction
      cases hsignal
  | cons first rest =>
      obtain ⟨f, k⟩ := first
      have hfound := (Class.definitionsAbove_of_superclass hp).symm.trans habove
      cases (runOn_readProperty_cls hwalks hbinds.get?_this hfound).symm.trans hfunction
      obtain ⟨b, hb⟩ := exists_invokes (i := ⟨f, ws, o, k⟩) hwalks hgives rfl
        (Class.definitions_eq_cons hfound).1
      exact ⟨f, k, rest, b, rfl, hb⟩

end Evaluation

end Scripting
