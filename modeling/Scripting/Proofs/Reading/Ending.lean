import Mathlib.Data.Set.Finite.Lattice
import Mathlib.Logic.Relation
import Scripting.Proofs.Reading.Fuel
import Scripting.Proofs.Reading.Literals

/-!
# Readings come to an end

A site is a call of a grammar function with the tokens that lie ahead of it, and one site asks
another if the function calls the other's on its way. The sizes of calls fall along this relation,
so that there is no endless descent, and from one site only finitely many others are reached. None
of them has tokens ahead that the first had not. A function that is reached again, be it in the next
round of its loop or in an expression inside the expression, has fewer of them ahead. Where no
tokens are left it is not reached again at all.
-/

namespace Scripting

namespace Grammar

open Step Relation

/-- A call of a grammar function with the tokens that lie ahead of it. -/
structure Site where
  {result : Type}
  call : Call result
  ahead : List Token

namespace Site

/-- The grammar function that is called. -/
def rule (s : Site) : Rule :=
  s.call.rule

def size (s : Site) : Nat :=
  s.call.size s.ahead

end Site

namespace Routine

variable {α : Type} {answer : Answers} {limit bound : Nat} {ts : List Token} {s : Site}

/-- The calls of a routine on tokens, in the order in which they are made. -/
def calls (answer : Answers) : Routine α → List Token → List Site
  | done _, _ => []
  | taking go, ts => (go (Step.next ts).value).calls answer (Step.next ts).rest
  | looking go, ts => (go (aheadKind ts)).calls answer ts
  | lookingFurther go, ts => (go (aheadKind ts.tail)).calls answer ts
  | reporting _ go, ts => go.calls answer ts
  | calling c go, ts => ⟨c, ts⟩ :: (go (answer c ts).value).calls answer (answer c ts).rest

theorem Within.size_lt_of_mem_calls {r : Routine α} (h : r.Within limit bound ts)
    (hanswer : ∀ ⦃β : Type⦄ (c : Call β) us, (answer c us).rest.length ≤ c.bound us)
    (hs : s ∈ r.calls answer ts) : s.size < limit := by
  induction r generalizing ts with
  | done a => cases hs
  | taking go ih | looking go ih | lookingFurther go ih => exact ih _ h hs
  | reporting e go ih => exact ih h hs
  | calling c go ih =>
      obtain ⟨hsize, hgo⟩ := h
      obtain rfl | hs := List.mem_cons.mp hs
      · exact hsize
      · exact ih _ (hgo _ _ (hanswer c ts)) hs

theorem next_rest_suffix (ts : List Token) : (Step.next ts).rest <:+ ts := by
  cases ts with
  | nil => exact List.suffix_refl []
  | cons t ts => exact List.suffix_cons t ts

/-- Where no call leaves anything but a last part of the tokens ahead of it, the routine does not
either, and has nothing but such parts ahead of its calls. -/
theorem suffix_of_calls (r : Routine α)
    (hcalls : ∀ s ∈ r.calls answer ts, (answer s.call s.ahead).rest <:+ s.ahead) :
    (r.run answer ts).rest <:+ ts ∧ ∀ s ∈ r.calls answer ts, s.ahead <:+ ts := by
  induction r generalizing ts with
  | done a => exact ⟨List.suffix_refl ts, by rintro _ ⟨⟩⟩
  | taking go ih =>
      obtain ⟨hrest, hsites⟩ := ih _ hcalls
      have hnext := next_rest_suffix ts
      exact ⟨hrest.trans hnext, fun s hs => (hsites s hs).trans hnext⟩
  | looking go ih | lookingFurther go ih => exact ih _ hcalls
  | reporting e go ih => exact ih hcalls
  | calling c go ih =>
      have hc : (answer c ts).rest <:+ ts := hcalls ⟨c, ts⟩ List.mem_cons_self
      obtain ⟨hrest, hsites⟩ := ih _ fun s hs => hcalls s (List.mem_cons_of_mem _ hs)
      refine ⟨hrest.trans hc, fun s hs => ?_⟩
      obtain rfl | hs := List.mem_cons.mp hs
      · exact List.suffix_refl _
      · exact (hsites s hs).trans hc

end Routine

namespace Site

variable {outer inner : Site}

/-- The calls that the function makes on its way. -/
def calls (s : Site) : List Site :=
  s.call.routine.calls Call.settled s.ahead

/-- The function of the one site calls that of the other on its way. -/
def Asks (outer inner : Site) : Prop :=
  inner ∈ outer.calls

theorem Asks.size_lt (h : outer.Asks inner) : inner.size < outer.size :=
  (Call.within outer.ahead outer.call).size_lt_of_mem_calls (fun _ => Call.rest_settled_le) h

theorem wellFounded_asks : WellFounded fun inner outer : Site => outer.Asks inner :=
  Subrelation.wf Asks.size_lt (measure size).wf

theorem rest_settled_suffix (s : Site) : (s.call.settled s.ahead).rest <:+ s.ahead := by
  induction s using wellFounded_asks.induction with
  | _ s ih =>
      rw [Call.settled_eq_run]
      exact (s.call.routine.suffix_of_calls ih).1

theorem Asks.ahead_suffix (h : outer.Asks inner) : inner.ahead <:+ outer.ahead :=
  (outer.call.routine.suffix_of_calls fun s _ => s.rest_settled_suffix).2 inner h

theorem size_lt_of_transGen (h : TransGen Asks outer inner) : inner.size < outer.size := by
  induction h with
  | single h => exact h.size_lt
  | tail _ h ih => exact h.size_lt.trans ih

theorem ahead_suffix_of_transGen (h : TransGen Asks outer inner) :
    inner.ahead <:+ outer.ahead := by
  induction h with
  | single h => exact h.ahead_suffix
  | tail _ h ih => exact h.ahead_suffix.trans ih

/-- Whenever a function is reached again there are fewer tokens ahead. -/
theorem length_lt_of_transGen (h : TransGen Asks outer inner) (hrule : inner.rule = outer.rule) :
    inner.ahead.length < outer.ahead.length := by
  have hsize : 8 * inner.ahead.length + inner.rule.height <
      8 * outer.ahead.length + outer.rule.height := size_lt_of_transGen h
  rw [hrule] at hsize
  omega

theorem finite_reached (s : Site) : {inner | ReflTransGen Asks s inner}.Finite := by
  induction s using wellFounded_asks.induction with
  | _ s ih =>
      have hcalls : (⋃ t ∈ {t | s.Asks t}, {inner | ReflTransGen Asks t inner}).Finite :=
        (List.finite_toSet s.calls).biUnion ih
      refine (hcalls.insert s).subset fun inner hinner => ?_
      obtain rfl | ⟨t, hasks, hinner⟩ := ReflTransGen.cases_head_iff.mp hinner
      · exact Set.mem_insert _ _
      · exact Set.mem_insert_of_mem s (Set.mem_biUnion hasks hinner)

end Site

end Grammar

/-- Literals with no more digits than the limit keep no token list from being read. -/
theorem Reading.tooLong_ofTokens_eq_none {ts : List Token}
    (hliterals : ∀ t ∈ ts, t.kind = .int → (literalDigits t.literal).length ≤ digitLimit) :
    (ofTokens ts).tooLong? = none := by
  refine List.findSome?_eq_none_iff.mpr fun e he => ?_
  cases e with
  | literalTooLong digits =>
      obtain ⟨t, ht, hfault⟩ := exists_token_of_blames he rfl
      obtain ⟨hmem, hkind⟩ := List.mem_filter.mp ht
      have hle := hliterals t hmem (of_decide_eq_true hkind)
      rw [literalFault?, if_neg (Nat.not_lt.mpr hle)] at hfault
      split at hfault <;> cases hfault
  | _ => rfl

open Grammar Relation

/-- Reading ends on every token list. The routines without fuel have one meaning, which the grammar
functions have with any fuel above the size of a call and the reading of a token list has. From no
site are there more than finitely many others to reach; each has nothing but a last part of the
tokens ahead, and where a function is reached again, for another round of its loop or inside itself,
this part is shorter. -/
theorem readings_end (ts : List Token)
    (hliterals : ∀ t ∈ ts, t.kind = .int → (literalDigits t.literal).length ≤ digitLimit) :
    (∀ answer : Answers, (∀ ⦃β : Type⦄ (c : Call β), answer c = c.routine.run answer) ↔
        answer = Call.settled) ∧
      (∀ ⦃β : Type⦄ (c : Call β) (us : List Token) (fuel : Nat), c.size us < fuel →
        c.answer fuel us = c.settled us) ∧
      (Reading.ofTokens ts =
          ⟨(Call.program.settled ts).value, (Call.program.settled ts).errors⟩ ∧
        (Reading.ofTokens ts).tooLong? = none) ∧
      (∀ s : Site, {inner | ReflTransGen Site.Asks s inner}.Finite) ∧
      ∀ outer inner : Site, TransGen Site.Asks outer inner →
        inner.ahead <:+ outer.ahead ∧ inner.size < outer.size ∧
        (inner.rule = outer.rule → inner.ahead.length < outer.ahead.length) := by
  refine ⟨fun answer => ⟨fun h => ?_, ?_⟩, fun _ c us fuel => Call.answer_eq_settled,
    ⟨Reading.ofTokens_eq_settled ts, Reading.tooLong_ofTokens_eq_none hliterals⟩,
    Site.finite_reached, fun outer inner h => ?_⟩
  · exact funext fun β => funext (Call.eq_settled h)
  · rintro rfl
    exact fun _ => Call.settled_eq_run
  · exact ⟨Site.ahead_suffix_of_transGen h, Site.size_lt_of_transGen h,
      Site.length_lt_of_transGen h⟩

/-- Tokens of which one has a kind that the language does not have and one is an end token in front
of others. -/
def scatteredTokens : List Token :=
  [⟨.other "WHAT", "", 0⟩, ⟨.eof, "", 1⟩, ⟨.lbracket, "[", 1⟩, ⟨.int, "7", 2⟩]

theorem readings_end_of_scatteredTokens :
    (∀ t ∈ scatteredTokens, t.kind = .int → (literalDigits t.literal).length ≤ digitLimit) ∧
      (Reading.ofTokens scatteredTokens).tooLong? = none ∧
      ∀ inner : Site, TransGen Site.Asks ⟨.program, scatteredTokens⟩ inner →
        inner.ahead <:+ scatteredTokens ∧ (inner.rule = .program → inner.ahead.length < 4) := by
  have hliterals : ∀ t ∈ scatteredTokens, t.kind = .int →
      (literalDigits t.literal).length ≤ digitLimit := by
    decide +kernel
  obtain ⟨-, -, ⟨-, hread⟩, -, hreached⟩ := readings_end scatteredTokens hliterals
  refine ⟨hliterals, hread, fun inner h => ?_⟩
  obtain ⟨hsuffix, -, hagain⟩ := hreached _ inner h
  exact ⟨hsuffix, hagain⟩

end Scripting
