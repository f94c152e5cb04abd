import SqlStore.Shell.Options
import SqlStore.Shell.Session

/-!
# Command line

Runs one source text, or a session on standard input. Reports go to standard error.
-/

namespace SqlStore.Shell

/-- Writes the reports that the filter admits. -/
def writeLog (f : LogFilter) (events : List Event) : IO Unit :=
  for e in events do
    if f.admits e.level then IO.eprintln e.render

/-- Reads bytes up to a line feed or the end of input. -/
partial def readLine (input : IO.FS.Stream) (line : Array UInt8) : IO (Array UInt8) := do
  let chunk ← input.read 1
  match chunk.toList with
  | [] => return line
  | b :: _ => if b = 10 then return line.push b else readLine input (line.push b)

/-- Follows the lines of standard input until the session ends. -/
partial def interact (o : Options) (input output : IO.FS.Stream) (db : Database) : IO UInt32 := do
  output.putStr o.prompt
  output.flush
  let line ← readLine input #[]
  if line.isEmpty then return 0
  match step db line.toList with
  | .stop ending =>
      match ending.message? with
      | none => return 0
      | some message =>
          IO.eprintln ("ERROR i/o failure: " ++ message)
          return 1
  | .proceed answer =>
      writeLog o.logFilter answer.log
      output.putStr answer.output
      interact o input output answer.database

/-- Runs what the options ask for and gives the exit code. -/
def start (o : Options) : IO UInt32 := do
  let output ← IO.getStdout
  match o.source with
  | some source =>
      let answer := executeSource .empty source
      writeLog o.logFilter answer.log
      output.putStr answer.output
      return if answer.succeeded then 0 else 1
  | none =>
      output.putStr greeting
      interact o (← IO.getStdin) output .empty

end SqlStore.Shell

def main (arguments : List String) : IO UInt32 := do
  match SqlStore.Shell.Options.default.read arguments with
  | .ok (some o) => SqlStore.Shell.start o
  | .ok none =>
      IO.print SqlStore.Shell.Options.usage
      return 0
  | .error message =>
      IO.eprintln ("error: " ++ message)
      return 2
