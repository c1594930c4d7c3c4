import Scripting.Options.Setting
import Scripting.Shell

/-!
# The command line

What the arguments ask for, and what the program then writes. Flags may stand anywhere and long
ones may be shortened as long as they stay unambiguous; at most one argument names a script. With
a script the program runs it; without one it starts the shell.

Reading files, the environment and the input is left to the caller: everything here is a
function of what was read.
-/

namespace Scripting

/-- The flags of the command line. `verbose` asks for a log, and no log is written here. -/
inductive Flag where
  | help | verbose | inheritMethods | lenientAssignment
  deriving DecidableEq, Repr

/-- All flags. -/
def Flag.all : List Flag :=
  [.help, .verbose, .inheritMethods, .lenientAssignment]

/-- The long spelling of a flag. -/
def Flag.long : Flag → String
  | help => "--help"
  | verbose => "--verbose"
  | inheritMethods => "--inherit-methods"
  | lenientAssignment => "--lenient-assignment"

/-- The letter of a flag that has a short spelling. -/
def Flag.ofLetter? : Char → Option Flag
  | 'h' => some .help
  | 'v' => some .verbose
  | _ => none

/-- What one argument is. -/
inductive Argument where
  | flags (flags : List Flag)
  | file (path : String)
  /-- It looks like a flag and is none. -/
  | stray (arg : String)
  /-- Nothing behind it is looked at. -/
  | fault (message : String)
  deriving DecidableEq, Repr

namespace Argument

/-- Whether a text is a minus sign and a number, which may end in a newline. -/
def isNegativeNumber (chars : List Char) : Bool :=
  match if chars.getLast? = some '\n' then chars.dropLast else chars with
  | '-' :: digits =>
      let fraction := digits.dropWhile isDecimalDigit
      match fraction with
      | [] => !digits.isEmpty
      | '.' :: places => !places.isEmpty && places.all isDecimalDigit
      | _ => false
  | _ => false

/-- What an argument with a hyphen in front is that spells no flag: a number or a text with a blank
is taken as a path. -/
def unknown (arg : String) : Argument :=
  if isNegativeNumber arg.toList || arg.toList.contains ' ' then file arg else stray arg

/-- The flags that a shortened long spelling may mean. -/
def candidates (spelling : List Char) : List Flag :=
  Flag.all.filter fun flag => spelling.isPrefixOf flag.long.toList

/-- What an argument that starts with two hyphens is. No flag takes a value. -/
def ofLong (arg : String) : Argument :=
  let spelling := arg.toList.takeWhile (· != '=')
  let found := Flag.all.filter fun flag => flag.long.toList = spelling
  let found := if found.isEmpty then candidates spelling else found
  match found with
  | [] => unknown arg
  | [flag] =>
      if arg.toList.contains '=' then
        fault ("argument " ++ flag.long ++ ": ignored explicit argument")
      else flags [flag]
  | found =>
      fault ("ambiguous option: " ++ arg ++ " could match " ++
        ", ".intercalate (found.map Flag.long))

/-- What an argument that starts with one hyphen is: a run of flag letters. -/
def ofShort (arg : String) (letters : List Char) : Argument :=
  match letters.head?.bind Flag.ofLetter? with
  | none => unknown arg
  | some first =>
      match letters.tail.mapM Flag.ofLetter? with
      | some rest => flags (first :: rest)
      | none => fault ("ignored explicit argument in " ++ arg)

/-- What an argument is. A lone hyphen is a path. -/
def ofString (arg : String) : Argument :=
  match arg.toList with
  | '-' :: '-' :: _ => ofLong arg
  | '-' :: c :: rest => ofShort arg (c :: rest)
  | _ => file arg

/-- The arguments of a command line; behind `--` all are paths. -/
def ofStrings : List String → List Argument
  | [] => []
  | "--" :: rest => rest.map file
  | arg :: rest => ofString arg :: ofStrings rest

end Argument

/-- What a command line asks for. -/
inductive Request where
  /-- The arguments are wrong. -/
  | usageFault (message : String)
  | showHelp
  /-- Run a script, or the shell where there is none. -/
  | start (script? : Option String) (flags : List Flag)
  deriving DecidableEq, Repr

/-- What the arguments of a command line ask for. Asking for help wins over everything but a fault
in front of it; arguments that nothing can be done with are named last. -/
def Request.ofArguments (args : List String) : Request :=
  let (sound, behind) := (Argument.ofStrings args).span fun | .fault _ => false | _ => true
  let flags := sound.flatMap fun | .flags flags => flags | _ => []
  let files := sound.filterMap fun | .file path => some path | _ => none
  let strays := sound.filterMap fun | .stray arg => some arg | _ => none
  if flags.contains .help then showHelp
  else
    match behind, files.drop 1 ++ strays with
    | .fault message :: _, _ => usageFault message
    | _, [] => start files.head? flags
    | _, extra => usageFault ("unrecognized arguments: " ++ " ".intercalate extra)

/-- What the program leaves: its exit code and what it wrote. -/
structure Exit where
  code : Nat
  stdout : String
  stderr : String
  deriving DecidableEq, Repr

namespace CommandLine

/-- The usage line. -/
def usage : String :=
  "usage: sho [-h] [-v] [--inherit-methods] [--lenient-assignment] [file]\n"

/-- The help text. -/
def help : String :=
  usage ++
    "\nRun a sho script, or start the interactive shell.\n\n" ++
    "positional arguments:\n" ++
    "  file                  script to run (if empty, starts the interactive shell)\n\n" ++
    "options:\n" ++
    "  -h, --help            show this help message and exit\n" ++
    "  -v, --verbose         log tokenizer, parser and evaluator activity\n" ++
    "  --inherit-methods     resolve methods through the superclass chain\n" ++
    "  --lenient-assignment  assigning to an undeclared name creates it instead of\n" ++
    "                        failing\n"

/-- The options of environment variables and flags. The variables are checked first; a flag then
overrides what they say. -/
def options (environment : Table String) (flags : List Flag) :
    Except (List (OptionName × SettingFault)) Options := do
  let options ← Options.ofSettings [] environment
  let options :=
    if flags.contains .inheritMethods then { options with methodResolution := .chain }
    else options
  return if flags.contains .lenientAssignment then { options with assignment := .lenient }
    else options

/-- The exit on faulty settings. -/
def settingsExit (faults : List (OptionName × SettingFault)) : Exit :=
  let lines := faults.map fun (option, fault) => option.name ++ ": " ++ fault.message
  ⟨2, "", diagnosticLine "config error" ("\n".intercalate lines)⟩

/-- The exit on faulty arguments. -/
def usageExit (message : String) : Exit :=
  ⟨2, "", usage ++ "sho: error: " ++ message ++ "\n"⟩

/-- Every line end as a single newline. -/
def unifyNewlines : List Char → List Char
  | [] => []
  | '\r' :: '\n' :: rest => '\n' :: unifyNewlines rest
  | '\r' :: rest => '\n' :: unifyNewlines rest
  | c :: rest => c :: unifyNewlines rest

/-- The exit after a script whose result is known, with what it printed. -/
def scriptExit (printed : String) : Except Failure Value → Except Failure Exit
  | .ok .null => .ok ⟨0, printed, ""⟩
  | .ok (.failed error) => .ok ⟨1, printed, diagnosticLine "runtime error" error.message⟩
  | .ok value => .ok ⟨0, printed ++ value.inspect ++ "\n", ""⟩
  | .error (.syntaxErrors errors) =>
      .ok ⟨1, printed,
        "\n=============|Syntax Errors|=============\n\n" ++ Shell.syntaxDiagnostics errors⟩
  | .error (.literalTooLong digits) => .error (.literalTooLong digits)
  | .error failure => .ok ⟨1, printed, diagnosticLine "fatal" failure.message⟩

/-- Runs a script. Its contents come as read, or with the reason why it could not be read. -/
def runScript (options : Options) (path : String) (contents : Except String String) :
    Except Failure Exit :=
  match contents with
  | .error reason =>
      .ok ⟨1, "", diagnosticLine "error" ("cannot read '" ++ path ++ "': " ++ reason)⟩
  | .ok text =>
      let (result, session) :=
        (Session.start options).run (String.ofList (unifyNewlines text.toList))
      scriptExit session.takeOutput.1 result

/-- The lines of an input; text behind the last newline is a line too. -/
def inputLines (input : String) : List String :=
  let pieces := (input.splitToList (· == '\n'))
  if pieces.getLast? = some "" then pieces.dropLast else pieces

/-- Runs the shell on a whole input. -/
def runShell (options : Options) (input : String) : Except Failure Exit := do
  let shown ← (Shell.start options).transcript (inputLines input)
  return ⟨0, Shell.intro ++ "\n" ++ shown, ""⟩

/-- Runs the program: on its arguments, the environment variables, a way to read a file and the
input. -/
def run (args : List String) (environment : Table String)
    (readFile : String → Except String String) (input : String) : Except Failure Exit :=
  match Request.ofArguments args with
  | .usageFault message => .ok (usageExit message)
  | .showHelp => .ok ⟨0, help, ""⟩
  | .start script? flags =>
      match options environment flags with
      | .error faults => .ok (settingsExit faults)
      | .ok options =>
          match script? with
          | some path => runScript options path (readFile path)
          | none => runShell options input

end CommandLine

end Scripting
