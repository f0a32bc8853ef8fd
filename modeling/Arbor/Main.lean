import Arbor.Command
import Std.Time.DateTime.Timestamp

/-!
# Entry point

Reads the file a command asks for, performs the command, and passes on what it has done.
-/

namespace Arbor

/-- The text of a file, if it can be read. -/
def readIfThere (path : String) : IO (Option String) := do
  try
    return some (← IO.FS.readFile path)
  catch _ =>
    return none

/-- The current time in milliseconds. -/
def currentTime : IO Float := do
  let now ← Std.Time.Timestamp.now
  return Float.ofInt now.toMillisecondsSinceUnixEpoch.toInt

/-- What a command without a report is called when it crashes. -/
def Crash.message : Crash → String
  | .notJson => "the stored tree is not JSON"
  | .tree error => error.message?.getD "the stored tree is malformed"
  | .fault broken => broken.message?.getD "the stored tree cannot be run"
  | .outOfTurns => "a loop took too many turns"

/-- Writes out what a command has done and gives its exit status. -/
def deliver (done : Performed) : IO UInt32 := do
  for (path, text) in done.written do
    IO.FS.writeFile path.text text
  (← IO.getStdout).putStr done.stdout
  (← IO.getStderr).putStr done.stderr
  match done.status with
  | .ok code => return UInt32.ofNat code
  | .error crash =>
    (← IO.getStderr).putStrLn crash.message
    return 1

end Arbor

open Arbor in
/-- Performs the command of the given arguments. -/
def main (arguments : List String) : IO UInt32 := do
  match Command.ofList arguments with
  | .error .help =>
    IO.println "usage: ling [-h] [-v] [--emit-ast SCRIPT | --ast AST_JSON_FILE] [script]"
    return 0
  | .error error =>
    (← IO.getStderr).putStrLn ("ling: error: " ++ error.message)
    return 2
  | .ok command =>
    let contents ← readIfThere command.input.text
    deliver (command.perform {} (← currentTime) contents)
