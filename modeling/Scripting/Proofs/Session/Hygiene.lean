import Mathlib
import Scripting.Proofs.Reading.Given
import Scripting.Proofs.Session.Conduct
import Scripting.Proofs.Session.WellMade

/-!
# What `this` and `super` stand for

No tree of a text gives a reserved word as a name, so scripts cannot bind `this` or `super` by
themselves: only the calls of methods bind them, in the scope that such a call opens, `this` to an
object and `super` to a class.
-/

namespace Scripting

open Eval

/-- The conduct of scripts that give no reserved word as a name. -/
def Conduct.withoutReserved : Conduct where
  toWatch := .nothing
  node n := AllNames (fun name => TokenKind.ofWord name = .ident) n.given
  name n := TokenKind.ofWord n = .ident
  integer _ := True
  literal l := AllNames (fun name => TokenKind.ofWord name = .ident) l.given
  measured _ := True
  child h hpart name hname := h name (Part.given_subset hpart hname)
  int _ := trivial
  letIn h := h _ List.mem_cons_self
  assign h := h _ List.mem_cons_self
  classDef {n superclass methods} h := by
    refine ⟨h n List.mem_cons_self, fun row hrow name hname => h name ?_⟩
    have hin : name ∈ FunctionLiteral.givenIn methods :=
      FunctionLiteral.given_subset_givenIn hrow hname
    exact List.mem_cons_of_mem _ (List.mem_append_right _ hin)
  function h := h
  params {l} h p hp := by
    obtain ⟨params, body⟩ := l
    exact h p (List.mem_append_left _ hp)
  body {l} h := by
    obtain ⟨params, body⟩ := l
    exact fun name hname => h name (List.mem_append_right _ hname)
  wrapped _ := trivial
  array _ := trivial
  string _ := trivial

theorem Conduct.lenient_withoutReserved : Conduct.withoutReserved.Lenient :=
  ⟨fun _ => trivial, fun _ _ => trivial⟩

theorem Conduct.reads_withoutReserved : Conduct.withoutReserved.Reads := by
  intro text program hread
  obtain ⟨-, rfl⟩ := Reading.program?_eq_ok hread
  exact Reading.given_ofText text

namespace Session

variable {options : Options} {s : State}

theorem Visits.leads_withoutReserved (hs : (start options).Visits s) :
    Conduct.withoutReserved.Leads (start options).state s :=
  Conduct.lenient_withoutReserved.leads Conduct.reads_withoutReserved (Conduct.tidy_start options)
    hs

/-- A reserved word stands for nothing but what a method call binds to it. -/
theorem Visits.reserved (hs : (start options).Visits s) {k : Nat} {row : String × Value}
    (hrow : row ∈ s.scopes.bindings k) (hreserved : TokenKind.ofWord row.1 ≠ .ident) :
    (row.1 = "this" ∧ ∃ o, row.2 = .object o) ∨ (row.1 = "super" ∧ ∃ c, row.2 = .cls c) :=
  (hs.leads_withoutReserved.tidy.bindings k row hrow).2.resolve_left hreserved

theorem Visits.this (hs : (start options).Visits s) {k : Nat} {row : String × Value}
    (hrow : row ∈ s.scopes.bindings k) (hthis : row.1 = "this") : ∃ o, row.2 = .object o := by
  rcases hs.reserved hrow (by rw [hthis]; decide) with ⟨-, h⟩ | ⟨hsuper, -⟩
  · exact h
  · exact absurd (hthis.symm.trans hsuper) (by decide)

theorem Visits.super (hs : (start options).Visits s) {k : Nat} {row : String × Value}
    (hrow : row ∈ s.scopes.bindings k) (hsuper : row.1 = "super") : ∃ c, row.2 = .cls c := by
  rcases hs.reserved hrow (by rw [hsuper]; decide) with ⟨hthis, -⟩ | ⟨-, h⟩
  · exact absurd (hthis.symm.trans hsuper) (by decide)
  · exact h

/-- The root scope binds no reserved word. -/
theorem Visits.root (hs : (start options).Visits s) {row : String × Value}
    (hrow : row ∈ s.scopes.bindings (start options).root) : TokenKind.ofWord row.1 = .ident := by
  by_contra hreserved
  have hkept := hs.leads_withoutReserved.retains.rows (start options).root (Nat.lt_succ_self _) row.1
    hreserved
  have hnone : (s.scopes.bindings (start options).root).get? row.1 = none := by
    rw [hkept, bindings_start, Table.get?_nil]
  exact (Table.get?_eq_none_iff _ _).mp hnone (List.mem_map_of_mem hrow)

end Session

/-- What is looked up is in a row of some scope, or the error is given. -/
theorem runOn_lookupOrFail {s : State} {Q : Value → Prop} {name : String} (error : RuntimeError)
    (scope : Nat) (hrows : ∀ k, ∀ row ∈ s.scopes.bindings k, row.1 = name → Q row.2) :
    ∃ v, (lookupOrFail scope name error).runOn s = (some v, s) ∧ (Q v ∨ v = .failed error) := by
  rw [lookupOrFail, runOn_bind_of_some (a := s.scopes.get? scope name) (t := s) rfl]
  cases hfound : s.scopes.get? scope name with
  | none => exact ⟨_, rfl, .inr rfl⟩
  | some v =>
      obtain ⟨k, -, hk⟩ := List.exists_of_findSome?_eq_some hfound
      exact ⟨v, rfl, .inl (hrows k _ (Table.mem_of_get? hk) rfl)⟩

/-- No tree of a text gives a reserved word as a name. In every state that a session visits `this`
stands for objects only and `super` for classes only, and the root scope binds no reserved word at
all. So `this` gives an object or the error that there is none, `super` a class or its error, and
neither changes the state. -/
theorem this_and_super_are_hygienic (options : Options) :
    (∀ text, ∀ name ∈ Block.given (Reading.ofText text).program,
        TokenKind.ofWord name = .ident) ∧
      (∀ s, (Session.start options).Visits s →
        (∀ k, ∀ row ∈ s.scopes.bindings k,
          (row.1 = "this" → ∃ o, row.2 = .object o) ∧
            (row.1 = "super" → ∃ c, row.2 = .cls c)) ∧
        (∀ row ∈ s.scopes.bindings (Session.start options).root,
          row.1 ≠ "this" ∧ row.1 ≠ "super") ∧
        ∀ (run : RunBody) (scope : Nat),
          (∃ v, (Expr.this.eval options run scope).runOn s = (some v, s) ∧
            ((∃ o, v = .object o) ∨ v = .failed .thisNotFound)) ∧
          ∃ v, (Expr.super.eval options run scope).runOn s = (some v, s) ∧
            ((∃ c, v = .cls c) ∨ v = .failed .superNotFound)) ∧
      RuntimeError.thisNotFound.message = "'this' not found in current context" ∧
      RuntimeError.superNotFound.message = "'super' not found in current context" := by
  refine ⟨Reading.given_ofText, fun s hs => ⟨fun k row hrow => ?_, fun row hrow => ?_, ?_⟩,
    rfl, rfl⟩
  · exact ⟨hs.this hrow, hs.super hrow⟩
  · have hgiven := hs.root hrow
    exact ⟨fun h => absurd (h ▸ hgiven) (by decide), fun h => absurd (h ▸ hgiven) (by decide)⟩
  · intro run scope
    rw [Expr.eval, Expr.eval]
    exact ⟨runOn_lookupOrFail _ scope fun k row hrow => hs.this hrow,
      runOn_lookupOrFail _ scope fun k row hrow => hs.super hrow⟩

/-- A method that gives `this`, called on an object of a class with a superclass. -/
def givingThisText : String :=
  "class A \x7b let n = func() \x7b return 1 \x7d \x7d " ++
    "class B extends A \x7b let m = func() \x7b return this \x7d \x7d let b = new B(); b.m()"

theorem this_and_super_are_hygienic_of_givingThis :
    ∃ s, (Session.start { methodResolution := .chain }).Visits s ∧
      (s.scopes.bindings 1).names = ["this", "super"] ∧
      (∀ row ∈ s.scopes.bindings 1, (row.1 = "this" → ∃ o, row.2 = .object o) ∧
        (row.1 = "super" → ∃ c, row.2 = .cls c)) := by
  have hvisits := (Session.start { methodResolution := .chain }).visits_runAll 1 [givingThisText]
  have hnames : ((((Session.start { methodResolution := .chain }).runAll 1
      [givingThisText]).state.scopes.bindings 1).names) = ["this", "super"] := by
    cbv
  obtain ⟨-, hstates, -⟩ := this_and_super_are_hygienic { methodResolution := .chain }
  exact ⟨_, hvisits, hnames, (hstates _ hvisits).1 1⟩

end Scripting
