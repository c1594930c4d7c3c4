import Scripting.Proofs.Run.Identity
import Scripting.Proofs.Run.Reachable

/-!
# Values last

A history of requests shows the values that are stored at its moments and those that it answers
with. One registry knows all of them (`exists_registry`): what is the same thing at two moments is
equal, so nothing that is seen of a value itself changes, its printed form least of all.
-/

namespace Scripting

open Eval Registry

/-! ### Requests keep a registry -/

theorem tracks_runBody (options : Options) (depth : Nat) : (runBody options depth).Tracks := by
  induction depth with
  | zero => exact fun _ _ _ _ hs => .tooDeep hs
  | succ depth ih =>
      exact fun block scope _ _ hs =>
        Part.tracks_eval ih (.block block) hs fun _ _ h => nomatch h

mutual

theorem tracks_toValue (data : HostValue) {w : Registry} {s : State} (hs : w.Fits s) :
    data.toValue.Tracks w Knows s := by
  match data with
  | .null | .boolean b | .integer n | .string s =>
      rw [HostValue.toValue]
      exact .pure hs (knows_of_isPlain trivial)
  | .array elements =>
      rw [HostValue.toValue]
      exact (tracks_toValues elements hs).bind fun vs t w' _ ht hvs => tracks_newArray ht hvs

theorem tracks_toValues (elements : List HostValue) {w : Registry} {s : State} (hs : w.Fits s) :
    (HostValue.toValues elements).Tracks w (fun w' vs => ∀ v ∈ vs, w'.Knows v) s := by
  match elements with
  | [] =>
      rw [HostValue.toValues]
      exact .pure hs fun _ hv => nomatch hv
  | data :: rest =>
      rw [HostValue.toValues]
      refine (tracks_toValue data hs).bind fun v t w₁ _ ht hv => ?_
      refine (tracks_toValues rest ht).bind fun vs u w₂ hext hu hvs => ?_
      exact .pure hu (List.forall_mem_cons.mpr ⟨hv.mono hext, hvs⟩)

end

section

variable {w : Registry} {s : State}

theorem tracks_bareObject (scope : Nat) (name className : String)
    (properties : List (String × HostValue)) (hs : w.Fits s) :
    (Session.bareObject scope name className properties).Tracks w Knows s := by
  unfold Session.bareObject
  refine (tracks_lookup hs scope className).bind fun r t w₁ hext ht hr => ?_
  split
  · next _ c =>
      have hc : w₁.KnowsClass c := hr _ rfl
      have hrow (row : String × HostValue) {w : Registry} {s : State} (hs : w.Fits s) :
          Eval.Tracks w (fun w' (row : String × Value) => w'.Knows row.2)
            (do return (row.1, ← row.2.toValue)) s :=
        (tracks_toValue row.2 hs).bind fun v _ _ _ ht hv => .pure ht hv
      have hgrow {w w' : Registry} {row : String × Value} (hext : w.Extends w')
          (h : w.Knows row.2) : w'.Knows row.2 := h.mono hext
      refine (Tracks.mapM hrow hgrow properties ht).bind fun rows u w₂ hext₂ hu hrows => ?_
      refine (tracks_newObject hu (hc.mono hext₂) (Table.All.ofList hrows)).bind
        fun o u' w₃ hext₃ hu' ho => ?_
      have hobject : w₃.Knows (.object o) := ho.1
      refine (tracks_bindName hu' scope name hobject).bind fun _ _ _ hext₄ hu' _ => ?_
      exact .pure hu' (hobject.mono hext₄)
  · exact tracks_fail ht _
  · exact tracks_fail ht _

theorem tracks_answer (request : HostRequest) (hs : w.Fits s) :
    request.answer.Tracks w Knows s := by
  cases request with
  | root =>
      exact (tracks_rootScope hs).bind fun _ _ _ _ ht _ => .pure ht (knows_of_isPlain trivial)
  | program options depth scope program =>
      refine Tracks.bind (Q := Knows) ?_ fun v t w' _ ht hv => .pure ht (knows_unwrapReturn hv)
      exact Part.tracks_eval (tracks_runBody options depth) (.block program) hs
        fun _ _ h => nomatch h
  | statement options depth scope s =>
      exact Part.tracks_eval (tracks_runBody options depth) (.stmt s) hs
        fun _ _ h => nomatch h
  | object scope name className properties =>
      exact tracks_bareObject scope name className properties hs

end

/-! ### Values of a history -/

/-- A state stores a value or has it in a value that it stores. -/
inductive State.Contains (s : State) (v : Value) : Prop where
  | bound {scope : Nat} {row : String × Value} (hrow : row ∈ s.scopes.bindings scope)
      (hv : v.Inside row.2)
  | property {i : Nat} {hi : i < s.properties.size} {row : String × Value}
      (hrow : row ∈ s.properties[i]) (hv : v.Inside row.2)

theorem State.Stores.everywhere {P : Value → Prop} {s : State} {v : Value}
    (h : s.Stores fun u => u.Everywhere P) (hv : s.Contains v) : v.Everywhere P := by
  cases hv with
  | bound hrow hv => exact (h.bindings _ _ hrow).inside hv
  | property hrow hv => exact (h.properties _ _ _ hrow).inside hv

/-- A history shows a value: it is stored at a moment of one of the requests, or it is in the answer
to one. -/
inductive Shown (requests : List HostRequest) (v : Value) : Prop where
  | stored {before after : List HostRequest} {request : HostRequest} {t : State}
      (hsplit : requests = before ++ request :: after)
      (ht : request.answer.Passes (State.initial.serve before) t) (hv : t.Contains v)
  | given {before after : List HostRequest} {request : HostRequest} {a : Value}
      (hsplit : requests = before ++ request :: after)
      (ha : (request.answer.runOn (State.initial.serve before)).1 = some a) (hv : v.Inside a)

theorem Shown.inside {requests : List HostRequest} {u v : Value} (h : Shown requests v)
    (hu : u.Inside v) : Shown requests u := by
  cases h with
  | stored hsplit ht hv =>
      refine .stored hsplit ht ?_
      cases hv with
      | bound hrow hv => exact .bound hrow (hu.trans hv)
      | property hrow hv => exact .property hrow (hu.trans hv)
  | given hsplit ha hv => exact .given hsplit ha (hu.trans hv)

/-- From a state on, one registry goes with all moments and answers of the requests. -/
theorem exists_registry (requests : List HostRequest) {w : Registry} {s : State} (hs : w.Fits s) :
    ∃ w', w.Extends w' ∧ w'.Fits (s.serve requests) ∧
      ∀ before request after, requests = before ++ request :: after →
        (∀ t, request.answer.Passes (s.serve before) t → t.Stores w'.Knows) ∧
          ∀ a, (request.answer.runOn (s.serve before)).1 = some a → w'.Knows a := by
  induction requests generalizing w s with
  | nil =>
      refine ⟨w, .refl w, hs, fun before request after hsplit => ?_⟩
      cases before <;> cases hsplit
  | cons first rest ih =>
      obtain ⟨w₁, hext₁, hfits₁, hpasses, hanswer⟩ := tracks_answer first hs
      obtain ⟨w₂, hext₂, hfits₂, hrest⟩ := ih hfits₁
      refine ⟨w₂, hext₁.trans hext₂, hfits₂, fun before request after hsplit => ?_⟩
      cases before with
      | nil =>
          cases hsplit
          refine ⟨fun t ht => ?_, fun a ha => (hanswer a ha).mono hext₂⟩
          obtain ⟨u, hu, hfits⟩ := hpasses t ht
          exact stores_mono hfits.stores (hu.trans hext₂)
      | cons _ before =>
          cases hsplit
          exact hrest before request after rfl

/-- Of the values that a history shows, those that are the same are equal, at whatever moments they
are seen. -/
theorem Shown.eq_of_same {requests : List HostRequest} {u v : Value} (hu : Shown requests u)
    (hv : Shown requests v) (h : u.same v = true) : u = v := by
  obtain ⟨w, -, -, hw⟩ := exists_registry requests empty_fits
  have hknows {v : Value} (hv : Shown requests v) : w.Knows v := by
    cases hv with
    | stored hsplit ht hv => exact ((hw _ _ _ hsplit).1 _ ht).everywhere hv
    | given hsplit ha hv => exact ((hw _ _ _ hsplit).2 _ ha).inside hv
  exact Registry.eq_of_same (hknows hu) (hknows hv) h

/-- A reachable state has a registry of the identities given so far. -/
theorem State.Reachable.exists_fits {s : State} (hs : s.Reachable) : ∃ w : Registry, w.Fits s := by
  obtain ⟨requests, request, hpasses⟩ := hs
  obtain ⟨w, -, hfits, -⟩ := exists_registry requests empty_fits
  obtain ⟨w', -, -, hmoments, -⟩ := tracks_answer request hfits
  obtain ⟨u, -, hu⟩ := hmoments s hpasses
  exact ⟨u, hu⟩

/-- What a reachable state contains is shown by a history. -/
theorem State.Reachable.exists_shown {s : State} (hs : s.Reachable) :
    ∃ requests, ∀ v, s.Contains v → Shown requests v := by
  obtain ⟨requests, request, hpasses⟩ := hs
  exact ⟨requests ++ [request], fun v hv => .stored rfl hpasses hv⟩

end Scripting
