import Scripting.Proofs.Run.Lasting
import Scripting.Proofs.Run.Outcome
import Scripting.Proofs.Run.Requests
import Scripting.Proofs.Value.Slots

/-!
# Maps follow printed forms

A map keeps what it was made of under the printed forms of its keys. It is made, indexed and read
like an object by the same slots (`maps_follow_printed_forms`). A key may be anything, a function, an
object or another map; its slot stays right since all values last, as `Shown.eq_of_same` has it.
-/

namespace Scripting

open Eval

/-- Each row of a map stands under the printed form of its key. -/
def Value.IsKeyed (v : Value) : Prop :=
  ∀ ident rows, v = .hash ident rows → KeyedByPrint rows

/-- Maps are made keyed, so evaluation stays among values in which every map is. -/
theorem invariant_keyed :
    Invariant (fun v => v.isSignal = false ∧ v.IsKeyed) (fun _ => True) fun _ => True where
  ordinary _ h := h.1
  literal _ _ _ := ⟨rfl, nofun⟩
  wrapped _ := ⟨rfl, nofun⟩
  length _ := ⟨rfl, nofun⟩
  string _ := ⟨rfl, nofun⟩
  boolean _ := ⟨rfl, nofun⟩
  null := ⟨rfl, nofun⟩
  builtin _ := ⟨rfl, nofun⟩
  array _ _ _ := ⟨rfl, nofun⟩
  hash _ pairs _ := by
    refine ⟨rfl, fun ident rows h => ?_⟩
    rw [Value.ofList_pairs] at h
    cases h
    exact Value.keyedByPrint_slots pairs
  function _ :=
    ⟨fun _ => FunctionLiteral.forall_of (fun _ => trivial) _, fun _ => ⟨rfl, nofun⟩⟩
  cls _ :=
    ⟨fun _ _ _ => FunctionLiteral.forall_of (fun _ => trivial) _, fun _ => ⟨rfl, nofun⟩⟩
  object _ := ⟨fun _ => ⟨rfl, nofun⟩, fun _ => ⟨rfl, nofun⟩⟩
  boundMethod _ _ _ _ :=
    ⟨fun _ => ⟨FunctionLiteral.forall_of (fun _ => trivial) _, ⟨rfl, nofun⟩, rfl, nofun⟩,
      fun _ => ⟨rfl, nofun⟩⟩
  missing _ := trivial
  unassignable _ _ _ _ := trivial
  runtime _ _ _ := trivial

theorem Value.everywhere_isKeyed_of_outcome {v : Value}
    (h : Outcome (fun w => w.isSignal = false ∧ w.IsKeyed) (fun _ => True) v) :
    v.Everywhere IsKeyed := by
  rcases h with ⟨h | h⟩ | h
  · exact h.mono fun _ hw => hw.2
  · exact nofun
  · exact ⟨nofun, h.mono fun _ hw => hw.2⟩

/-- All maps that a history shows are keyed. -/
theorem Shown.isKeyed {requests : List HostRequest} {v : Value} (h : Shown requests v) :
    v.IsKeyed := by
  have hsafe {s : State} (hs : s.Reachable) :=
    invariant_keyed.safe_of_reachable (fun _ => ⟨rfl, nofun⟩) (fun _ => trivial) hs
  cases h with
  | stored _ ht hv => exact ((hsafe ⟨_, _, ht⟩).everywhere hv).head.2
  | @given before _ request a _ ha hv =>
      have hanswer := invariant_keyed.keeps_answer (fun _ => ⟨rfl, nofun⟩) (fun _ => trivial) request
      have ha := hanswer.result (hsafe (State.reachable_serve before)) ha
      exact ((Value.everywhere_isKeyed_of_outcome ha).inside hv).head

section

variable {options : Options} {run : RunBody} {scope : Nat} {s t u : State}

/-- A map of expressions with ordinary values has the slots that these values make. -/
theorem runOn_map {pairs : List (Expr × Expr)} {vs : List Value}
    (h : Part.Gives options run scope
      (pairs.flatMap fun pair => [.expr pair.1, .expr pair.2]) s vs t) :
    ((Expr.map pairs).eval options run scope).runOn s =
      (some (.hash t.nextIdent (Value.slots (Part.inPairs vs))),
        { t with nextIdent := t.nextIdent + 1 }) := by
  have hgives : Part.Gives options run scope ((Part.expr (.map pairs)).parts vs) s vs t := h
  rw [← Value.ofList_pairs]
  exact hgives.runOn_eval

/-- Indexing takes the row under the printed form of the position. -/
theorem runOn_index {target position : Expr} {v i : Value}
    (h : Part.Gives options run scope [.expr target, .expr position] s [v, i] t) :
    ((Expr.index target position).eval options run scope).runOn s = (some (v.index i), t) := by
  have hgives : Part.Gives options run scope
    ((Part.expr (.index target position)).parts [v, i]) s [v, i] t := h
  exact hgives.runOn_eval

/-- A property of a map is what the map answers to the name. -/
theorem runOn_property_of_hash {object : Expr} {ident : Nat}
    {rows : List (String × Value × Value)}
    (h : (object.eval options run scope).runOn s = (some (.hash ident rows), t)) (name : String) :
    ((Expr.property object name).eval options run scope).runOn s =
      (some ((Value.hash ident rows).index (.string name)), t) := by
  have hgives : Part.Gives options run scope
    ((Part.expr (.property object name)).parts [.hash ident rows]) s [.hash ident rows] t :=
    .cons h rfl (.nil t)
  exact hgives.runOn_eval

end

/-- A map of expressions that give ordinary values has one row for each printed form among the keys,
in the order of their first occurrence, with the key and the content of the last pair whose key
prints so. Indexed with any value, it gives the content of the last pair whose key prints like this
value, or null, and a property of a map is what the map gives for the name as a string. All maps in
a reachable state are keyed like this; and however a key is seen again later in a history, it still
prints as its slot says. -/
theorem maps_follow_printed_forms :
    (∀ (options : Options) (run : RunBody) (scope : Nat) (s t : State),
      (∀ (pairs : List (Expr × Expr)) (vs : List Value),
        Part.Gives options run scope
            (pairs.flatMap fun pair => [.expr pair.1, .expr pair.2]) s vs t →
          ((Expr.map pairs).eval options run scope).runOn s =
            (some (.hash t.nextIdent (Value.slots (Part.inPairs vs))),
              { t with nextIdent := t.nextIdent + 1 })) ∧
      (∀ (target position : Expr) (ident : Nat) (pairs : List (Value × Value)) (i : Value),
        Part.Gives options run scope [.expr target, .expr position] s
            [.hash ident (Value.slots pairs), i] t →
          ((Expr.index target position).eval options run scope).runOn s =
            (some (((Value.lastPrinting i.inspect pairs).map Prod.snd).getD .null), t)) ∧
      (∀ (object : Expr) (name : String) (ident : Nat) (rows : List (String × Value × Value)),
        (object.eval options run scope).runOn s = (some (.hash ident rows), t) →
          ((Expr.property object name).eval options run scope).runOn s =
            ((Expr.index object (.str name)).eval options run scope).runOn s)) ∧
    (∀ pairs : List (Value × Value),
      Table.names (Value.slots pairs) = (pairs.map fun pair => pair.1.inspect).eraseDups ∧
        ∀ printed, Table.get? (Value.slots pairs) printed = Value.lastPrinting printed pairs) ∧
    (∀ s : State, s.Reachable → ∀ ident rows, s.Contains (.hash ident rows) →
      Value.KeyedByPrint rows) ∧
    (∀ (requests : List HostRequest) (ident : Nat) (rows : List (String × Value × Value)),
      Shown requests (.hash ident rows) →
        Value.KeyedByPrint rows ∧
          ∀ row ∈ rows, ∀ v, Shown requests v → v.same row.2.1 = true → v.inspect = row.1) := by
  refine ⟨fun options run scope s t => ⟨fun _ _ => runOn_map, ?_, ?_⟩, ?_, ?_, ?_⟩
  · intro target position ident pairs i h
    rw [runOn_index h, Value.index_slots]
  · intro object name ident rows h
    rw [runOn_property_of_hash h, runOn_index (.cons h rfl (.cons rfl rfl (.nil t)))]
  · exact fun pairs => ⟨Value.names_slots pairs, Value.get?_slots pairs⟩
  · intro s hs ident rows hrows
    obtain ⟨requests, hshown⟩ := hs.exists_shown
    exact (hshown _ hrows).isKeyed ident rows rfl
  · intro requests ident rows hshown
    have hkeyed : Value.KeyedByPrint rows := hshown.isKeyed ident rows rfl
    refine ⟨hkeyed, fun row hrow v hv hsame => ?_⟩
    have hkey : Shown requests row.2.1 := hshown.inside (.key hrow (.self _))
    rw [hv.eq_of_same hkey hsame, hkeyed.slot row hrow]

/-- Pairs whose keys print alike though they are of different types. -/
def collidingPairs : List (Expr × Expr) :=
  [(.int 5 "5", .str "integer"), (.str "5", .str "string")]

/-- A list is made, becomes the key of a map, and is asked for again. -/
def listAsKey : List HostRequest :=
  [.root, .program {} 1 0 [.letIn "key" (.array [.str "a"]),
      .letIn "map" (.map [(.ident "key", .int 1 "1")])],
    .statement {} 1 0 (.expr (.ident "map")), .statement {} 1 0 (.expr (.ident "key"))]

theorem maps_follow_printed_forms_of_collidingPairs :
    ((Expr.map collidingPairs).eval {} (runBody {} 1) 0).runOn .oneScope =
        (some (.hash 0 [("5", .string "5", .string "string")]),
          { State.oneScope with nextIdent := 1 }) ∧
      ((Expr.index (.map collidingPairs) (.int 5 "5")).eval {} (runBody {} 1) 0).runOn .oneScope =
        (some (.string "string"), { State.oneScope with nextIdent := 1 }) ∧
      ((Expr.property (.map collidingPairs) "5").eval {} (runBody {} 1) 0).runOn .oneScope =
        ((Expr.index (.map collidingPairs) (.str "5")).eval {} (runBody {} 1) 0).runOn .oneScope ∧
      (State.initial.serve listAsKey).Contains
        (.hash 1 [("[a]", .array 0 [.string "a"], .integer 1)]) ∧
      Value.KeyedByPrint [("[a]", .array 0 [.string "a"], .integer 1)] ∧
      (Value.array 0 [.string "a"]).inspect = "[a]" := by
  obtain ⟨hreads, -, hreachable, hlasts⟩ := maps_follow_printed_forms
  let made : State := { State.oneScope with nextIdent := 1 }
  let pairs : List (Value × Value) :=
    [(.integer 5, .string "integer"), (.string "5", .string "string")]
  have hmap : ((Expr.map collidingPairs).eval {} (runBody {} 1) 0).runOn .oneScope =
      (some (.hash 0 (Value.slots pairs)), made) :=
    (hreads {} (runBody {} 1) 0 .oneScope .oneScope).1 collidingPairs
      [.integer 5, .string "integer", .string "5", .string "string"]
      (.cons rfl rfl (.cons rfl rfl (.cons rfl rfl (.cons rfl rfl (.nil _)))))
  obtain ⟨-, hindex, hproperty⟩ := hreads {} (runBody {} 1) 0 .oneScope made
  have hgives : Part.Gives {} (runBody {} 1) 0
      [.expr (.map collidingPairs), .expr (.int 5 "5")] .oneScope
      [.hash 0 (Value.slots pairs), .integer 5] made :=
    .cons hmap rfl (.cons rfl rfl (.nil _))
  have hrow : ((State.initial.serve listAsKey).scopes.bindings 0)[1]? =
      some ("map", .hash 1 [("[a]", .array 0 [.string "a"], .integer 1)]) := by
    with_unfolding_all rfl
  have hcontains : (State.initial.serve listAsKey).Contains
      (.hash 1 [("[a]", .array 0 [.string "a"], .integer 1)]) :=
    .bound (List.mem_of_getElem? hrow) (.self _)
  have hmapShown : Shown listAsKey (.hash 1 [("[a]", .array 0 [.string "a"], .integer 1)]) :=
    .given (show listAsKey = listAsKey.take 2 ++ _ :: _ from rfl) (by with_unfolding_all rfl)
      (.self _)
  have hkeyShown : Shown listAsKey (.array 0 [.string "a"]) :=
    .given (show listAsKey = listAsKey.take 3 ++ _ :: _ from rfl) (by with_unfolding_all rfl)
      (.self _)
  refine ⟨hmap, hindex _ _ _ _ _ hgives, hproperty _ "5" _ _ hmap, hcontains, ?_, ?_⟩
  · exact hreachable _ (State.reachable_serve listAsKey) _ _ hcontains
  · exact (hlasts _ _ _ hmapShown).2 _ List.mem_cons_self _ hkeyShown rfl

end Scripting
