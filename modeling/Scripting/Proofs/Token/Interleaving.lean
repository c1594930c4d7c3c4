import Mathlib.Data.List.Count
import Scripting.Proofs.Token.Join
import Scripting.Proofs.Token.Source

/-!
# Several lexers at once

Lexers that are called in any order keep out of each other's way. `Lexer.givenBy` picks out of all
the tokens that a run of calls gave those of one lexer; they are what that lexer hands out by itself
in as many calls (`Lexer.givenBy_calls`), and these are the tokens of its text, with the end token
repeated for as long as it is asked.
-/

namespace Scripting

/-- The first calls do not depend on how many follow. -/
theorem take_handOut {σ : Type} (next : σ → Token × σ) {k n : Nat} (h : k ≤ n) (s : σ) :
    (handOut next n s).take k = handOut next k s := by
  induction k generalizing n s with
  | zero => rfl
  | succ k ih =>
      cases n with
      | zero => cases h
      | succ n => exact congrArg ((next s).1 :: ·) (ih (Nat.le_of_succ_le_succ h) _)

theorem Streams.handOut_eq_take {σ : Type} {next : σ → Token × σ} {s : σ} {ts : List Token}
    {e : Token} (h : Streams next s ts e) (k : Nat) :
    handOut next k s =
      (ts ++ [e]).take k ++ List.replicate (k - (ts ++ [e]).length) e := by
  have hlong := h.handOut_eq (k + 1)
  rw [← take_handOut next (show k ≤ ts.length + (k + 1) by omega), hlong, List.replicate_succ,
    List.append_cons, List.take_append, List.take_replicate]
  congr 2
  omega

namespace Lexer

/-- The tokens that the lexer of a number gave, out of those that calls in some order gave. -/
def givenBy (i : Nat) (order : List Nat) (tokens : List Token) : List Token :=
  ((order.zip tokens).filter fun call => call.1 = i).map Prod.snd

theorem givenBy_cons (i j : Nat) (order : List Nat) (t : Token) (tokens : List Token) :
    givenBy i (j :: order) (t :: tokens) =
      if j = i then t :: givenBy i order tokens else givenBy i order tokens := by
  unfold givenBy
  rw [List.zip_cons_cons, List.filter_cons]
  by_cases h : j = i <;> simp [h]

variable {lexers : Array Lexer} {order : List Nat}

/-- A call gives a token of the lexer that is called, which goes on, and leaves the others. -/
theorem calls_cons {j : Nat} {lexer : Lexer} (h : lexers[j]? = some lexer) (order : List Nat) :
    calls lexers (j :: order) = lexer.next.1 :: calls (lexers.set! j lexer.next.2) order := by
  rw [calls, h]

theorem length_calls (h : ∀ j ∈ order, j < lexers.size) :
    (calls lexers order).length = order.length := by
  induction order generalizing lexers with
  | nil => rfl
  | cons j order ih =>
      obtain ⟨hj, horder⟩ := List.forall_mem_cons.mp h
      rw [calls_cons (Array.getElem?_eq_getElem hj), List.length_cons, List.length_cons, ih]
      simpa using horder

/-- Whatever is called in between, a lexer gives what it hands out by itself. -/
theorem givenBy_calls (h : ∀ j ∈ order, j < lexers.size) {i : Nat} {lexer : Lexer}
    (hi : lexers[i]? = some lexer) :
    givenBy i order (calls lexers order) = handOut next (order.count i) lexer := by
  induction order generalizing lexers lexer with
  | nil => rfl
  | cons j order ih =>
      obtain ⟨hj, horder⟩ := List.forall_mem_cons.mp h
      have hjth := Array.getElem?_eq_getElem hj
      have horder' : ∀ k ∈ order, k < (lexers.set! j lexers[j].next.2).size := by
        simpa using horder
      rw [calls_cons hjth, givenBy_cons]
      by_cases hji : j = i
      · subst hji
        obtain rfl : lexers[j] = lexer := Option.some.inj (hjth.symm.trans hi)
        have hbehind : (lexers.set! j lexers[j].next.2)[j]? = some lexers[j].next.2 := by
          simp [hj]
        rw [if_pos rfl, List.count_cons_self, ih horder' hbehind]
        rfl
      · have hsame : (lexers.set! j lexers[j].next.2)[i]? = some lexer := by
          rw [← hi]
          simp [hji]
        rw [if_neg hji, List.count_cons_of_ne hji, ih horder' hsame]

/-- The tokens of a text, and then its end token for as long as it is asked. -/
theorem handOut_ofText (text : String) (k : Nat) :
    handOut next k (ofText text) =
      (tokenize text).take k ++
        List.replicate (k - (tokenize text).length) ⟨.eof, "", text.length⟩ := by
  obtain ⟨ts, -, hend, -⟩ := exists_tokensFrom_append 0 text.toList
  rw [Nat.zero_add, String.length_toList] at hend
  rw [tokenize, hend]
  exact (streams_lexer hend).handOut_eq_take k

end Lexer

/-- Lexers of any texts, called in any order: each call gives a token, and the tokens that one of
the lexers gave are the first ones of its text, in order, and then the end token of that text for
each further call. -/
theorem lexers_do_not_interfere (texts : List String) (order : List (Fin texts.length)) :
    (Lexer.calls (texts.map Lexer.ofText).toArray (order.map Fin.val)).length = order.length ∧
      ∀ i : Fin texts.length,
        Lexer.givenBy i (order.map Fin.val)
            (Lexer.calls (texts.map Lexer.ofText).toArray (order.map Fin.val)) =
          (tokenize texts[i]).take (order.count i) ++
            List.replicate (order.count i - (tokenize texts[i]).length)
              ⟨.eof, "", texts[i].length⟩ ∧
        ∃ ts, (∀ t ∈ ts, t.kind ≠ .eof) ∧
          tokenize texts[i] = ts ++ [⟨.eof, "", texts[i].length⟩] := by
  have horder : ∀ j ∈ order.map Fin.val, j < (texts.map Lexer.ofText).toArray.size := by
    intro j hj
    obtain ⟨i, -, rfl⟩ := List.mem_map.mp hj
    simp
  refine ⟨(Lexer.length_calls horder).trans (List.length_map _), fun i => ⟨?_, ?_⟩⟩
  · have hi : (texts.map Lexer.ofText).toArray[i.val]? = some (Lexer.ofText texts[i]) := by
      simp
    have hcount : (order.map Fin.val).count i.val = order.count i :=
      List.count_map_of_injective _ _ (fun _ _ => Fin.ext) _
    rw [Lexer.givenBy_calls horder hi, hcount, Lexer.handOut_ofText]
  · obtain ⟨ts, hts, hend, -⟩ := exists_tokensFrom_append 0 texts[i].toList
    rw [Nat.zero_add, String.length_toList] at hend
    exact ⟨ts, hts, hend⟩

end Scripting
