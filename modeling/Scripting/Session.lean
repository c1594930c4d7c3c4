import Scripting.Reading
import Scripting.Run.Eval
import Scripting.Run.Host

/-!
# Sessions

A session keeps one root scope alive across several runs. Running a text reads it and, when it
has no faults, evaluates it in the root scope; a text with faults changes nothing. A runtime
error of a script is a result like any other, while a `Failure` is what keeps a run from having
a result.

What depends on the host alone is left out: that it may refuse a recursion limit or a printed line,
or run out of memory or, while it reads a text, of stack.
-/

namespace Scripting

/-- Why a run has no result. -/
inductive Failure where
  | syntaxErrors (errors : List SyntaxError)
  /-- An integer literal has too many digits to be looked at. -/
  | literalTooLong (digits : Nat)
  /-- Calls are nested too deeply. -/
  | tooDeep
  /-- A runtime error, where the host asked for it as a failure. -/
  | runtime (error : RuntimeError)

/-- The wording of a failure. -/
def Failure.message : Failure → String
  | syntaxErrors errors => "\n".intercalate (errors.map SyntaxError.message)
  | literalTooLong digits => (SyntaxError.literalTooLong digits).message
  | tooDeep => "maximum recursion depth exceeded"
  | runtime error => error.message

/-- The program of a reading without faults. -/
def Reading.program? (reading : Reading) : Except Failure Block :=
  match reading.tooLong? with
  | some digits => .error (.literalTooLong digits)
  | none =>
      if reading.errors.isEmpty then .ok reading.program
      else .error (.syntaxErrors reading.errors)

/-- A root scope in a state, with the options of its runs. -/
structure Session where
  options : Options
  root : Nat
  state : State

namespace Session

/-- A session with a new root scope in a state. -/
def startIn (state : State) (options : Options) : Session :=
  ⟨options, state.scopes.size, { state with scopes := state.scopes.addRoot }⟩

/-- A session in which nothing has run. -/
def start (options : Options) : Session :=
  startIn .initial options

/-- Carries out a computation in a session. -/
def perform {α : Type} (session : Session) (x : Eval α) : Option α × Session :=
  let (result, state) := x.runOn session.state
  (result, { session with state })

/-- Evaluates a program in the root scope, with the given limit on nested bodies. -/
def evaluateWithin (depth : Nat) (session : Session) (program : Block) :
    Except Failure Value × Session :=
  let (result, session) := session.perform
    (Block.evalProgram session.options (runBody session.options depth) session.root program)
  match result with
  | some value => (.ok value, session)
  | none => (.error .tooDeep, session)

/-- Evaluates a program in the root scope, with bodies nested as deep as the options allow. A
`return` ends it with its value. -/
def evaluate (session : Session) (program : Block) : Except Failure Value × Session :=
  session.evaluateWithin session.options.depthLimit program

/-- Evaluates one statement by itself and shows how it ended. -/
def step (session : Session) (s : Stmt) : Option Value × Session :=
  session.perform
    (s.eval session.options (runBody session.options session.options.depthLimit) session.root)

/-- Runs a text. -/
def run (session : Session) (text : String) : Except Failure Value × Session :=
  match (Reading.ofText text).program? with
  | .error failure => (.error failure, session)
  | .ok program => session.evaluate program

/-- Runs a text and counts a runtime error as a failure. -/
def runOrFail (session : Session) (text : String) : Except Failure Value × Session :=
  match session.run text with
  | (.ok (.failed error), session) => (.error (.runtime error), session)
  | other => other

/-- What has been printed since the last call, and the session with nothing printed. -/
def takeOutput (session : Session) : String × Session :=
  (session.state.output, { session with state := { session.state with output := "" } })

/-- The bindings of the root scope itself, by name. -/
def bindings (session : Session) : Table Value :=
  (session.state.scopes.bindings session.root).sorted

/-- Makes an object on behalf of the host and binds it to a name: its class is looked up in the
root scope, its methods are not copied and its constructor does not run. -/
def bareObject (root : Nat) (name className : String) (properties : List (String × HostValue)) :
    Eval Value := do
  match ← Eval.lookup root className with
  | some (.cls c) => do
      let rows ← properties.mapM fun row => return (row.1, ← row.2.toValue)
      let value := Value.object (← Eval.newObject c (Table.ofList rows))
      Eval.bindName root name value
      pure value
  | some other => Eval.fail (.notAClass other.type)
  | none => Eval.fail (.identifierNotFound className)

/-- Makes an object on behalf of the host in a session. -/
def bindBareObject (session : Session) (name className : String)
    (properties : List (String × HostValue)) : Option Value × Session :=
  session.perform (bareObject session.root name className properties)

end Session

end Scripting
