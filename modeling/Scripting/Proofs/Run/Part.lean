import Scripting.Run.Eval

/-!
# Parts in the order of evaluation

Evaluation goes from a node of the tree to its parts. `Part.parts` lists the parts of each kind of
node in the order in which they are evaluated, and `Part.finish` says what is done once all of them
have given ordinary values. The two say all there is to say about a node: `Part.eval_eq` states
that evaluating it is evaluating its parts from left to right up to the first signal, and then
finishing.

A name and a property of a value are parts as well. The callee of a call may be a property, which
is looked up between the evaluation of its object and that of the arguments.
-/

namespace Scripting

/-- What can be evaluated in a scope. -/
inductive Part where
  | expr (e : Expr)
  | stmt (s : Stmt)
  | block (b : Block)
  /-- What a name means. -/
  | meaning (name : String)
  /-- A property of a value. -/
  | property (target : Value) (name : String)

/-- Whether the left side of a logical operation decides its result. -/
def Value.Decides (op : String) (left : Value) : Prop :=
  op = "&&" ∧ left.isTruthy = false ∨ op = "||" ∧ left.isTruthy = true

instance (op : String) (left : Value) : Decidable (left.Decides op) :=
  inferInstanceAs (Decidable (_ ∨ _))

namespace Eval

/-- Handing on an ordinary value as it is changes nothing. -/
theorem onValue_pure (x : Eval Value) : (x.onValue fun v => pure v) = x := by
  simp [onValue]

variable {x : Eval Value} {f g : Value → Eval Value}

theorem onValue_congr (h : ∀ v, v.isSignal = false → f v = g v) : x.onValue f = x.onValue g := by
  unfold onValue
  congr 1
  funext v
  split
  · rfl
  · next hv => exact h v (Bool.eq_false_iff.mpr hv)

theorem onValue_onValue :
    (x.onValue f).onValue g = x.onValue fun v => (f v).onValue g := by
  unfold onValue
  rw [bind_assoc]
  congr 1
  funext v
  split
  · next hv => rw [pure_bind, if_pos hv]
  · rfl

theorem pure_onValue {v : Value} (hv : v.isSignal = false) :
    (pure v : Eval Value).onValue f = f v := by
  unfold onValue
  rw [pure_bind, if_neg (Bool.eq_false_iff.mp hv)]

end Eval

namespace Part

/-- The parts of a node in the order of their evaluation, as far as they are known once the first
of them gave the values `vs`: the first value decides about the right side of a logical operation
and about the branch of a condition, and a property is looked up on it. -/
def parts : Part → List Value → List Part
  | expr (.array elements), _ => elements.map expr
  | expr (.map pairs), _ => pairs.flatMap fun pair => [expr pair.1, expr pair.2]
  | expr (.index target position), _ => [expr target, expr position]
  | expr (.property object _), _ => [expr object]
  | expr (.assign (.property object _) value), _ => [expr value, expr object]
  | expr (.assign _ value), _ => [expr value]
  | expr (.new className args), _ => meaning className :: args.map expr
  | expr (.unary _ operand), _ => [expr operand]
  | expr (.binary left _ right), _ => [expr left, expr right]
  | expr (.logical left _ _), [] => [expr left]
  | expr (.logical left op right), v :: _ =>
      if v.Decides op then [expr left] else [expr left, expr right]
  | expr (.cond condition _ _), [] => [expr condition]
  | expr (.cond condition consequence alternative), v :: _ =>
      expr condition ::
        if v.isTruthy then [block consequence] else (alternative.map block).toList
  | expr (.call (.property object _) _), [] => [expr object]
  | expr (.call (.property object name) args), v :: _ =>
      expr object :: property v name :: args.map expr
  | expr (.call callee args), _ => expr callee :: args.map expr
  | stmt (.letIn _ value), _ => [expr value]
  | stmt (.ret .missing), _ => []
  | stmt (.ret value), _ => [expr value]
  | stmt (.expr value), _ => [expr value]
  | stmt (.classDef _ superclass _), _ => (superclass.map meaning).toList
  | block statements, _ => statements.map stmt
  | _, _ => []

/-- Only the first value decides which parts there are. -/
theorem parts_cons (node : Part) (v : Value) (vs : List Value) :
    node.parts (v :: vs) = node.parts [v] := by
  cases node with
  | expr e =>
      cases e with
      | assign target value => cases target <;> rfl
      | call callee args => cases callee <;> rfl
      | _ => rfl
  | stmt s =>
      cases s with
      | ret value => cases value <;> rfl
      | _ => rfl
  | _ => rfl

/-- The first part does not depend on values. -/
theorem head?_parts (node : Part) (v : Value) :
    (node.parts [v]).head? = (node.parts []).head? := by
  cases node with
  | expr e =>
      cases e with
      | assign target value => cases target <;> rfl
      | logical left op right =>
          simp only [parts]
          split <;> rfl
      | call callee args => cases callee <;> rfl
      | _ => rfl
  | stmt s =>
      cases s with
      | ret value => cases value <;> rfl
      | _ => rfl
  | _ => rfl

/-- The first part comes first whatever it gives. -/
theorem exists_parts_eq_cons {node first : Part} {rest : List Part}
    (hfirst : node.parts [] = first :: rest) (v : Value) :
    ∃ others, node.parts [v] = first :: others :=
  List.head?_eq_some_iff.mp (by rw [head?_parts, hfirst, List.head?_cons])

/-- Values of the first part and of those behind it are values of all parts. -/
theorem length_eq_of_tail {node first : Part} {rest : List Part}
    (hfirst : node.parts [] = first :: rest) {v : Value} {vs : List Value}
    (hlength : vs.length = (node.parts [v]).tail.length) :
    (v :: vs).length = (node.parts (v :: vs)).length := by
  obtain ⟨others, hothers⟩ := exists_parts_eq_cons hfirst v
  rw [parts_cons, hothers, List.length_cons, List.length_cons, hlength, hothers, List.tail_cons]

/-- Values taken two by two, a key before its content. -/
def inPairs : List Value → List (Value × Value)
  | key :: value :: rest => (key, value) :: inPairs rest
  | _ => []

theorem mem_of_mem_inPairs {pair : Value × Value} :
    ∀ {vs : List Value}, pair ∈ inPairs vs → pair.1 ∈ vs ∧ pair.2 ∈ vs
  | [], h => nomatch h
  | [_], h => nomatch h
  | key :: value :: rest, h => by
      rcases List.mem_cons.mp h with rfl | h
      · simp
      · have hrest := mem_of_mem_inPairs h
        exact ⟨List.mem_cons_of_mem _ (List.mem_cons_of_mem _ hrest.1),
          List.mem_cons_of_mem _ (List.mem_cons_of_mem _ hrest.2)⟩

section

variable (options : Options) (run : RunBody) (scope : Nat)

/-- The value of a part. -/
def eval : Part → Eval Value
  | expr e => e.eval options run scope
  | stmt s => s.eval options run scope
  | block b => Block.eval options run scope b
  | meaning n => readName scope n
  | property target n => readProperty options scope target n

/-- The values of parts, from left to right, up to the first signal. -/
def evalAll : List Part → Eval (Except Value (List Value))
  | [] => pure (.ok [])
  | part :: rest => do
      let value ← part.eval options run scope
      if value.isSignal then pure (.error value)
      else return (← evalAll rest).map (value :: ·)

/-- Binds a name to a new class with the given ancestors. -/
def bindClass (name : String) (methods : List (String × FunctionLiteral))
    (ancestors : List ClassBody) : Eval Value := do
  let closures ← methods.mapM fun row =>
    return (row.1, { ident := ← Eval.freshIdent, literal := row.2, scope := scope : Closure })
  let ident ← Eval.freshIdent
  Eval.bindName scope name (.cls ⟨⟨ident, name, Table.ofList closures⟩, ancestors⟩)
  pure .null

/-- Binds a name to a new class that inherits from what its superclass's name stands for, if it has
one. -/
def finishClass (name : String) (methods : List (String × FunctionLiteral)) :
    List Value → Eval Value
  | [] => bindClass scope name methods []
  | .cls c :: _ => bindClass scope name methods (c.own :: c.ancestors)
  | v :: _ => Eval.fail (.superclassNotClass v.type)

/-- What an assignment does with its value and, where the target is a property, its object. -/
def finishAssign (target : Expr) (values : List Value) : Eval Value :=
  match target, values with
  | .ident name, [value] => assignTo options scope name value
  | .property _ name, [value, object] => assignProperty object name value
  | target, _ => Eval.fail (.invalidTarget target.render)

/-- What a node does once its parts gave ordinary values. A node without parts does all it does. -/
def finish : Part → List Value → Eval Value
  | expr (.array _), vs => Eval.newArray vs
  | expr (.map _), vs => Eval.newHash (inPairs vs)
  | expr (.index _ _), [target, position] => pure (target.index position)
  | expr (.property _ name), [target] => readProperty options scope target name
  | expr (.assign target _), vs => finishAssign options scope target vs
  | expr (.new _ _), callee :: args => makeObject options run callee args
  | expr (.unary op _), [operand] => pure (Value.unary op operand)
  | expr (.binary _ op _), [left, right] => pure (left.binary op right)
  | expr (.logical _ _ _), vs => pure (.boolean (vs.getLast?.getD .null).isTruthy)
  | expr (.cond _ _ _), [_] => pure .null
  | expr (.cond _ _ _), [_, branch] => pure branch
  | expr (.call (.property _ _) _), target :: function :: args =>
      callValue options run function args target.object?
  | expr (.call _ _), function :: args => callValue options run function args none
  | stmt (.letIn name _), [value] => do
      Eval.bindName scope name value
      pure .null
  | stmt (.ret _), vs => pure (.returned (vs.getLast?.getD .null))
  | stmt (.expr _), [value] => pure value
  | stmt (.classDef name _ methods), vs => finishClass scope name methods vs
  | block _, vs => pure (vs.getLast?.getD .null)
  | node, _ => node.eval options run scope

end

variable {options : Options} {run : RunBody} {scope : Nat}

/-! ### Gathering parts -/

theorem eval_stmt (s : Stmt) :
    (stmt s).eval options run scope = s.eval options run scope := rfl

theorem onGathered_evalAll_nil (f : List Value → Eval Value) :
    (evalAll options run scope []).onGathered f = f [] := by
  simp [evalAll, Eval.onGathered]

theorem onGathered_evalAll_cons (part : Part) (rest : List Part) (f : List Value → Eval Value) :
    (evalAll options run scope (part :: rest)).onGathered f =
      (part.eval options run scope).onValue fun v =>
        (evalAll options run scope rest).onGathered fun vs => f (v :: vs) := by
  simp only [evalAll, Eval.onGathered, Eval.onValue, bind_assoc]
  congr 1
  funext v
  split
  · simp
  · simp only [bind_assoc, pure_bind]
    congr 1
    funext r
    cases r <;> rfl

theorem evalAll_map_expr (es : List Expr) :
    evalAll options run scope (es.map expr) = Expr.evalAll options run scope es := by
  induction es with
  | nil => rw [List.map_nil, evalAll, Expr.evalAll]
  | cons e es ih => rw [List.map_cons, evalAll, Expr.evalAll, ih, eval]

theorem onGathered_evalPairs_cons (key value : Expr) (rest : List (Expr × Expr))
    (f : List (Value × Value) → Eval Value) :
    (Expr.evalPairs options run scope ((key, value) :: rest)).onGathered f =
      (key.eval options run scope).onValue fun k =>
        (value.eval options run scope).onValue fun v =>
          (Expr.evalPairs options run scope rest).onGathered fun pairs => f ((k, v) :: pairs) := by
  simp only [Expr.evalPairs, Eval.onGathered, Eval.onValue, bind_assoc]
  congr 1
  funext k
  split
  · simp
  · simp only [bind_assoc]
    congr 1
    funext v
    split
    · simp
    · simp only [bind_assoc, pure_bind]
      congr 1
      funext r
      cases r <;> rfl

theorem onGathered_evalAll_pairs (pairs : List (Expr × Expr))
    (f : List (Value × Value) → Eval Value) :
    (evalAll options run scope (pairs.flatMap fun pair => [expr pair.1, expr pair.2])).onGathered
        (fun vs => f (inPairs vs)) =
      (Expr.evalPairs options run scope pairs).onGathered f := by
  induction pairs generalizing f with
  | nil =>
      rw [List.flatMap_nil, onGathered_evalAll_nil]
      simp [Expr.evalPairs, Eval.onGathered, inPairs]
  | cons pair pairs ih =>
      obtain ⟨key, value⟩ := pair
      rw [List.flatMap_cons, List.cons_append, List.cons_append, List.nil_append,
        onGathered_evalPairs_cons]
      simp only [onGathered_evalAll_cons, inPairs, eval]
      congr 1
      funext k
      congr 1
      funext v
      exact ih fun rest => f ((k, v) :: rest)

theorem evalFrom_eq (block : Block) (last : Value) :
    Block.evalFrom options run scope last block =
      (evalAll options run scope (block.map stmt)).onGathered fun vs =>
        pure (vs.getLast?.getD last) := by
  induction block generalizing last with
  | nil => simp [Block.evalFrom, onGathered_evalAll_nil]
  | cons s rest ih =>
      rw [Block.evalFrom, List.map_cons, onGathered_evalAll_cons]
      congr 1
      funext v
      rw [ih]
      congr 1
      funext vs
      cases vs <;> simp [List.getLast?_cons]

/-! ### One equation for all nodes -/

section

variable (options : Options) (run : RunBody) (scope : Nat)

/-- The evaluation of a node, put together from that of its parts. -/
def evalInOrder (node : Part) : Eval Value :=
  match node.parts [] with
  | [] => node.finish options run scope []
  | first :: _ =>
      (first.eval options run scope).onValue fun v =>
        (evalAll options run scope (node.parts [v]).tail).onGathered fun vs =>
          node.finish options run scope (v :: vs)

end

theorem evalInOrder_of_head {node first : Part} (h : (node.parts []).head? = some first) :
    node.evalInOrder options run scope =
      (first.eval options run scope).onValue fun v =>
        (evalAll options run scope (node.parts [v]).tail).onGathered fun vs =>
          node.finish options run scope (v :: vs) := by
  obtain ⟨rest, hparts⟩ := List.head?_eq_some_iff.mp h
  rw [evalInOrder, hparts]

/-- Where the parts do not depend on values, all of them are gathered. -/
theorem evalInOrder_of_parts {node : Part} {ps : List Part} (h : ∀ vs, node.parts vs = ps) :
    node.evalInOrder options run scope =
      (evalAll options run scope ps).onGathered (node.finish options run scope) := by
  unfold evalInOrder
  simp only [h]
  cases ps with
  | nil => rw [onGathered_evalAll_nil]
  | cons first rest => rw [onGathered_evalAll_cons, List.tail_cons]

theorem evalInOrder_of_part {node part : Part} (h : ∀ vs, node.parts vs = [part]) :
    node.evalInOrder options run scope =
      (part.eval options run scope).onValue fun v => node.finish options run scope [v] := by
  rw [evalInOrder_of_parts h, onGathered_evalAll_cons]
  simp only [onGathered_evalAll_nil]

theorem evalInOrder_of_two {node part other : Part} (h : ∀ vs, node.parts vs = [part, other]) :
    node.evalInOrder options run scope =
      (part.eval options run scope).onValue fun v =>
        (other.eval options run scope).onValue fun w => node.finish options run scope [v, w] := by
  rw [evalInOrder_of_parts h, onGathered_evalAll_cons]
  simp only [onGathered_evalAll_cons, onGathered_evalAll_nil]

theorem evalInOrder_logical (left : Expr) (op : String) (right : Expr) :
    (expr (.logical left op right)).evalInOrder options run scope =
      (Expr.logical left op right).eval options run scope := by
  rw [Expr.eval]
  simp only [evalInOrder, parts, eval, finish]
  congr 1
  funext v
  by_cases hand : op = "&&" ∧ v.isTruthy = false
  · have hdecided : v.Decides op := .inl hand
    rw [if_pos hdecided, if_pos hand, List.tail_cons, onGathered_evalAll_nil]
    simp [hand.2]
  · by_cases hor : op = "||" ∧ v.isTruthy = true
    · have hdecided : v.Decides op := .inr hor
      rw [if_pos hdecided, if_neg hand, if_pos hor, List.tail_cons, onGathered_evalAll_nil]
      simp [hor.2]
    · have hundecided : ¬v.Decides op := fun h => h.elim hand hor
      rw [if_neg hundecided, if_neg hand, if_neg hor, List.tail_cons, onGathered_evalAll_cons]
      simp [onGathered_evalAll_nil, eval]

theorem evalInOrder_cond (condition : Expr) (consequence : Block) (alternative : Option Block) :
    (expr (.cond condition consequence alternative)).evalInOrder options run scope =
      (Expr.cond condition consequence alternative).eval options run scope := by
  have hbranch (v : Value) (branch : Block) :
      ((evalAll options run scope [block branch]).onGathered fun vs =>
        finish options run scope (expr (.cond condition consequence alternative)) (v :: vs)) =
        Block.evalFrom options run scope .null branch := by
    simp only [onGathered_evalAll_cons, onGathered_evalAll_nil, finish, Eval.onValue_pure]
    rfl
  cases alternative with
  | none =>
      rw [Expr.eval]
      simp only [evalInOrder, parts, List.tail_cons]
      congr 1
      funext v
      split
      · exact hbranch v consequence
      · exact onGathered_evalAll_nil _
  | some alternative =>
      rw [Expr.eval]
      simp only [evalInOrder, parts, List.tail_cons]
      congr 1
      funext v
      split
      · exact hbranch v consequence
      · exact hbranch v alternative

theorem evalInOrder_classDef (name : String) (superclass : Option String)
    (methods : List (String × FunctionLiteral)) :
    (stmt (.classDef name superclass methods)).evalInOrder options run scope =
      (Stmt.classDef name superclass methods).eval options run scope := by
  rw [Stmt.eval]
  cases superclass with
  | none =>
      have hparts : ∀ vs, (stmt (.classDef name none methods)).parts vs = [] := fun _ => rfl
      rw [evalInOrder_of_parts hparts, onGathered_evalAll_nil]
      simp only [finish, finishClass, bindClass, makeClass, readAncestors, Eval.onGathered,
        Eval.onValue, Value.isSignal, pure_bind, bind_assoc, Bool.false_eq_true, if_false]
  | some parent =>
      rw [evalInOrder_of_part fun _ => rfl]
      simp only [finish, eval, makeClass, readAncestors, Eval.onGathered, Eval.onValue, bind_assoc]
      congr 1
      funext v
      cases v <;> simp [Value.isSignal, finishClass, bindClass, Eval.fail]

theorem evalInOrder_call (callee : Expr) (args : List Expr) :
    (expr (.call callee args)).evalInOrder options run scope =
      (Expr.call callee args).eval options run scope := by
  cases callee with
  | property object name =>
      rw [Expr.eval]
      simp only [evalInOrder, parts, List.tail_cons, onGathered_evalAll_cons, evalAll_map_expr,
        eval, finish]
  | _ =>
      rw [Expr.eval]
      · simp only [evalInOrder, parts, List.tail_cons, evalAll_map_expr, eval, finish]
      · nofun

/-- Evaluating a node is evaluating its parts in order, up to the first signal, and finishing with
their values. -/
theorem eval_eq (node : Part) :
    node.eval options run scope = node.evalInOrder options run scope := by
  cases node with
  | meaning n => rfl
  | property target n => rfl
  | block b =>
      rw [evalInOrder_of_parts fun _ => rfl, eval, Block.eval, evalFrom_eq]
      rfl
  | stmt s =>
      cases s with
      | letIn name value =>
          rw [evalInOrder_of_part fun _ => rfl, Part.eval_stmt, Stmt.eval]
          rfl
      | ret value =>
          cases value with
          | missing =>
              rw [evalInOrder_of_parts fun _ => rfl, onGathered_evalAll_nil, Part.eval_stmt,
                Stmt.eval]
              rfl
          | _ =>
              rw [evalInOrder_of_part fun _ => rfl, Part.eval_stmt, Stmt.eval]
              · rfl
              · nofun
      | expr value =>
          rw [evalInOrder_of_part fun _ => rfl, Part.eval_stmt, Stmt.eval]
          exact (Eval.onValue_pure _).symm
      | classDef name superclass methods =>
          exact (evalInOrder_classDef name superclass methods).symm
  | expr e =>
      cases e with
      | array elements =>
          rw [evalInOrder_of_parts fun _ => rfl, evalAll_map_expr, eval, Expr.eval]
          rfl
      | map pairs =>
          rw [evalInOrder_of_parts fun _ => rfl, eval, Expr.eval, ← onGathered_evalAll_pairs]
          rfl
      | index target position =>
          rw [evalInOrder_of_two fun _ => rfl, eval, Expr.eval]
          rfl
      | property object name =>
          rw [evalInOrder_of_part fun _ => rfl, eval, Expr.eval]
          rfl
      | assign target value =>
          cases target with
          | property object name =>
              rw [evalInOrder_of_two fun _ => rfl, eval, Expr.eval]
              rfl
          | _ =>
              rw [evalInOrder_of_part fun _ => rfl, eval, Expr.eval]
              rfl
      | new className args =>
          rw [evalInOrder_of_parts fun _ => rfl, onGathered_evalAll_cons, evalAll_map_expr, eval,
            Expr.eval]
          rfl
      | unary op operand =>
          rw [evalInOrder_of_part fun _ => rfl, eval, Expr.eval]
          rfl
      | binary left op right =>
          rw [evalInOrder_of_two fun _ => rfl, eval, Expr.eval]
          rfl
      | logical left op right => exact (evalInOrder_logical left op right).symm
      | cond condition consequence alternative =>
          exact (evalInOrder_cond condition consequence alternative).symm
      | call callee args => exact (evalInOrder_call callee args).symm
      | _ => rfl

end Part

end Scripting
