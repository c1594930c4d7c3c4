import Scripting.Text.Blank
import Scripting.Diagnostic
import Scripting.Session

/-!
# The interactive shell

A shell takes one line at a time. A line is a command or a piece of source text; source text is
collected until its brackets are closed, and then run. The bindings of a session last from line
to line.

`pending` is the source text collected so far, and `prompt` is what is shown before the next line is
read: it changes while brackets are open.
-/

namespace Scripting

/-- What a line asks for. -/
inductive LineCommand where
  | nothing
  | help
  /-- Shows how a text is read. -/
  | ast (code : String)
  /-- The input has ended. -/
  | endOfInput
  | exit
  /-- Source text to run. -/
  | source (line : String)
  deriving DecidableEq, Repr

namespace LineCommand

/-- The characters of a command word. -/
def isCommandChar (c : Char) : Bool :=
  ('a' ≤ c && c ≤ 'z') || ('A' ≤ c && c ≤ 'Z') || ('0' ≤ c && c ≤ '9') || c == '_'

/-- What a line asks for. The line is stripped first; `?` asks for help and `!` makes the whole
line source text. -/
def ofLine (line : String) : LineCommand :=
  let chars := Text.trim Text.isBlank line.toList
  match chars with
  | [] => nothing
  | '?' :: _ => help
  | '!' :: _ => source (String.ofList chars)
  | chars =>
      let argument := Text.trim Text.isBlank (chars.dropWhile isCommandChar)
      match String.ofList (chars.takeWhile isCommandChar) with
      | "ast" => ast (String.ofList argument)
      | "help" => help
      | "EOF" => endOfInput
      | "exit" => exit
      | _ => source (String.ofList chars)

end LineCommand

/-- A session with the source text that still has open brackets, and the prompt for the next
line. -/
structure Shell where
  session : Session
  pending : String
  prompt : String

/-- What the shell answers to a line. -/
structure Reply where
  out : String
  /-- Whether the shell ends. -/
  stop : Bool

namespace Shell

/-- The lines shown when a shell starts. -/
def intro : String :=
  "sho interpreter\nType 'help' for more information, 'exit' to leave."

/-- The text shown by `help`. -/
def helpText : String :=
  "Type statements to run them, e.g. 'let x = 5;' then 'x * 2'.\n" ++
    "Blocks may span several lines until their braces close.\n" ++
    "'ast <code>' shows how an expression was parsed.\n" ++
    "Built-ins: print, len, push.\n"

/-- The prompt for a line that starts a piece of source text. -/
def firstPrompt : String := ">> "

/-- The prompt for a line that continues a piece of source text. -/
def furtherPrompt : String := ".. "

/-- A shell on a new session. -/
def start (options : Options) : Shell :=
  ⟨Session.start options, "", firstPrompt⟩

/-- Diagnostics for syntax errors, a line each. -/
def syntaxDiagnostics (errors : List SyntaxError) : String :=
  String.join (errors.map fun e => diagnosticLine "parser error" e.message)

/-- What is shown of a run; a value is shown unless it is null. -/
def report : Except Failure Value → Except Failure String
  | .ok .null => .ok ""
  | .ok (.failed error) => .ok (diagnosticLine "runtime error" error.message)
  | .ok value => .ok (value.inspect ++ "\n")
  | .error (.literalTooLong digits) => .error (.literalTooLong digits)
  | .error (.syntaxErrors errors) => .ok (syntaxDiagnostics errors)
  | .error failure => .ok (diagnosticLine "fatal" failure.message)

/-- Takes a line of source text: keeps it while a bracket is open, else runs what is pending. -/
def feed (shell : Shell) (line : String) : Except Failure Reply × Shell :=
  let source := shell.pending ++ line ++ "\n"
  if 0 < bracketDepth (tokenize source) then
    (.ok ⟨"", false⟩, { shell with pending := source, prompt := furtherPrompt })
  else
    let (result, session) := shell.session.run source
    let (printed, session) := session.takeOutput
    ((report result).map fun shown => ⟨printed ++ shown, false⟩, ⟨session, "", firstPrompt⟩)

/-- What is shown of how a text is read. -/
def showTree (code : String) : Except Failure String :=
  match (Reading.ofText code).program? with
  | .ok program => .ok (Block.render program ++ "\n")
  | .error (.syntaxErrors errors) => .ok (syntaxDiagnostics errors)
  | .error failure => .error failure

/-- Answers a line. Only source text touches the session and what is pending. -/
def answer (shell : Shell) (line : String) : Except Failure Reply × Shell :=
  match LineCommand.ofLine line with
  | .nothing => (.ok ⟨"", false⟩, shell)
  | .help => (.ok ⟨helpText, false⟩, shell)
  | .ast code => ((showTree code).map fun shown => ⟨shown, false⟩, shell)
  | .endOfInput => (.ok ⟨"\n", true⟩, shell)
  | .exit => (.ok ⟨"", true⟩, shell)
  | .source line => shell.feed line

/-- All that a shell shows while it reads the given lines, up to the line that ends it or the end
of the input. -/
def transcript (shell : Shell) : List String → Except Failure String
  | [] =>
      match shell.answer "EOF" with
      | (.error failure, _) => .error failure
      | (.ok reply, _) => .ok (shell.prompt ++ reply.out)
  | line :: rest =>
      match shell.answer line with
      | (.error failure, _) => .error failure
      | (.ok reply, behind) =>
          if reply.stop then .ok (shell.prompt ++ reply.out)
          else (transcript behind rest).map fun shown => shell.prompt ++ reply.out ++ shown

end Shell

end Scripting
