import Scripting.CommandLine

/-!
# The program

Reads the environment, the script and the lines typed at the shell, and writes what the library
answers.
-/

namespace Scripting

namespace Program

/-- The environment variables that settings come from. -/
def environment : IO (Table String) := do
  let entries ← try IO.FS.readFile "/proc/self/environ" catch _ => pure ""
  let rows := (entries.splitToList (· == '\x00')).filterMap fun entry =>
    match entry.toList.span (· != '=') with
    | (name, '=' :: value) => some (String.ofList name, String.ofList value)
    | _ => none
  pure (rows.filter fun row => (Setting.lower row.1).startsWith "sho_")

/-- The contents of a script, or why it cannot be read. -/
def readScript (path : String) : IO (Except String String) := do
  try
    return .ok (← IO.FS.readFile path)
  catch
    | .noFileOrDirectory _ _ _ => return .error "No such file or directory"
    | .permissionDenied _ _ _ => return .error "Permission denied"
    | .inappropriateType _ _ _ => return .error "Is a directory"
    | error => return .error (toString error)

/-- Writes what an exit leaves and gives its code. -/
def finish (exit : Exit) : IO UInt32 := do
  IO.print exit.stdout
  IO.eprint exit.stderr
  return exit.code.toUInt32

/-- Ends with a failure that leaves nothing to go on with. -/
def giveUp (failure : Failure) : IO UInt32 :=
  finish ⟨1, "", diagnosticLine "fatal" failure.message⟩

/-- Answers the lines of the input until one ends the shell. -/
partial def converse (input : IO.FS.Stream) (shell : Shell) : IO UInt32 := do
  IO.print shell.prompt
  (← IO.getStdout).flush
  let line ← input.getLine
  match shell.answer (if line.isEmpty then "EOF" else line) with
  | (.error failure, _) => giveUp failure
  | (.ok reply, behind) =>
      IO.print reply.out
      if reply.stop then return 0 else converse input behind

/-- Runs a script or, where there is none, the shell. -/
def start (options : Options) : Option String → IO UInt32
  | none => do
      IO.println Shell.intro
      converse (← IO.getStdin) (Shell.start options)
  | some path => do
      match CommandLine.runScript options path (← readScript path) with
      | .error failure => giveUp failure
      | .ok exit => finish exit

end Program

end Scripting

open Scripting in
def main (args : List String) : IO UInt32 := do
  match Request.ofArguments args with
  | .usageFault message => Program.finish (CommandLine.usageExit message)
  | .showHelp => Program.finish ⟨0, CommandLine.help, ""⟩
  | .start script? flags =>
      match CommandLine.options (← Program.environment) flags with
      | .error faults => Program.finish (CommandLine.settingsExit faults)
      | .ok options => Program.start options script?
