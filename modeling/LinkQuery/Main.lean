import LinkQuery.Tool.Command
import Std.Time
/-!
# The command line tool

Reads the schema of a command, runs the command on the present of the system clock, and prints.
-/
namespace LinkQuery

/-- What is printed for arguments that make no command. -/
def usage : String :=
  "Usage: tabula check EXPRESSION [-k KIND] [-t TABLE] [-s FILE] [--time-zone ZONE] [-p] " ++
    "[--syntax-only]\n       tabula docs\n       tabula doc TOPIC\n"

/-- The present of the system clock. -/
def systemNow : IO Time.Timestamp := do
  let now ← Std.Time.Timestamp.now
  let seconds := now.toSecondsSinceUnixEpoch.val
  let epoch := Time.Timestamp.ofDate ⟨1970, 1, 1⟩
  return { epoch.moveSeconds seconds with nano := now.val.nano.val.toNat }

/-- Reads a text, or gives the reason why it cannot be read. -/
def readText (read : IO String) : IO (Except ToolError (Option String)) := do
  try
    return .ok (some (← read))
  catch
    | .noFileOrDirectory _ code _ =>
      return .error (.unreadable s!"No such file or directory (os error {code})")
    | other => return .error (.unreadable (toString other))

/-- The schema document from a source. -/
def readSource : SchemaSource → IO (Except ToolError (Option String))
  | .nowhere => return .ok none
  | .standardInput => do
    let input ← IO.getStdin
    if ← input.isTty then return .ok none else readText (do
      let bytes ← input.readBinToEnd
      match String.fromUTF8? bytes with
      | some text => return text
      | none => throw (IO.userError "stream did not contain valid UTF-8"))
  | .file path => readText (IO.FS.readFile path)

end LinkQuery

open LinkQuery in
/-- Runs the command of the arguments. -/
def main (arguments : List String) : IO UInt32 := do
  match Command.ofArguments? arguments with
  | none =>
    IO.eprint usage
    return 2
  | some command =>
    let schema ← readSource command.source
    let result := command.run (← systemNow) schema
    IO.print result.output
    IO.eprint result.errors
    return result.code.toUInt32
