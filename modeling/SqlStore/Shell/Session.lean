import SqlStore.Database
import SqlStore.Shell.Layout

/-!
# Shell sessions

A session reads lines and runs each of them as a script, printing results and errors, until a line asks to quit,
the input ends, or a line is no text.
-/

namespace SqlStore.Shell

/-! ## One script -/

/-- What running a script prints, whether all of it succeeded, the database after it, and what is reported. -/
structure Answer where
  output : String
  succeeded : Bool
  database : Database
  log : List Event

/-- What a statement was doing when it failed. -/
def activity : Statement → String
  | .create .. => "creating table"
  | .insert .. => "inserting values"
  | .select _ => "selecting values"
  | .drop _ => "dropping table"

/-- What an outcome prints. -/
def showOutcome : Outcome → String
  | .selected r => showResults r
  | _ => ""

/-- What is reported when an outcome is printed. -/
def outcomeLog : Outcome → List Event
  | .selected r => showLog r
  | _ => []

/-- Runs statements, printing as it goes, until one fails. -/
def executeScript (db : Database) : Script → Answer
  | [] => ⟨"ok\n", true, db, []⟩
  | statement :: others =>
      let first := db.execute statement
      match first.result with
      | .error e => ⟨"Error " ++ activity statement ++ ": " ++ e.message ++ "\n", false, first.state, first.log⟩
      | .ok outcome =>
          let rest := executeScript first.state others
          ⟨showOutcome outcome ++ rest.output, rest.succeeded, rest.database,
            first.log ++ outcomeLog outcome ++ rest.log⟩

/-- Runs a source text. -/
def executeSource (db : Database) (source : String) : Answer :=
  match Script.ofSource source with
  | .error e => ⟨"Error while parsing: " ++ e.message ++ "\n", false, db, []⟩
  | .ok script => executeScript db script

/-! ## One line -/

/-- How a session ends: at the end of input or on request, or at a line that is no UTF-8 text. -/
inductive Ending
  | finished
  | invalidText
deriving DecidableEq

namespace Ending

def message? : Ending → Option String
  | .finished => none
  | .invalidText => some "stream did not contain valid UTF-8"

end Ending

/-- What a line asks for. -/
inductive Request
  | quit
  | nothing
  | execute (source : String)
deriving DecidableEq

/-- What the text of a line asks for, without the blanks around it. -/
def Request.ofText (cs : List Char) : Request :=
  let trimmed := Text.trim cs
  if trimmed ∈ ["quit".toList, "exit".toList, "\\q".toList] then .quit
  else if trimmed.isEmpty then .nothing
  else .execute (String.ofList trimmed)

/-- What a line does: it ends the session, or prints something and leaves a database. -/
inductive Step
  | stop (ending : Ending)
  | proceed (answer : Answer)

/-- Follows one line of input. -/
def step (db : Database) (line : List UInt8) : Step :=
  match Text.Utf8.decode? line with
  | none => .stop .invalidText
  | some cs =>
      match Request.ofText cs with
      | .quit => .stop .finished
      | .nothing => .proceed ⟨"", true, db, []⟩
      | .execute source => .proceed (executeSource db source)

/-! ## A whole session -/

/-- What a session prints, how it ends, the database it leaves, and what is reported. -/
structure Session where
  output : String
  ending : Ending
  database : Database
  log : List Event

/-- The lines of an input, each with its line feed; only the last can lack one. -/
def inputLines : List UInt8 → List (List UInt8)
  | [] => []
  | b :: bytes =>
      if b = 10 then [b] :: inputLines bytes
      else
        match inputLines bytes with
        | [] => [[b]]
        | line :: lines => (b :: line) :: lines

def greeting : String := "Welcome to tinysql.\n"

/-- Prints the prompt and follows the next line, as long as there is one. -/
def follow (prompt : String) (db : Database) : List (List UInt8) → Session
  | [] => ⟨prompt, .finished, db, []⟩
  | line :: lines =>
      match step db line with
      | .stop ending => ⟨prompt, ending, db, []⟩
      | .proceed answer =>
          let rest := follow prompt answer.database lines
          ⟨prompt ++ answer.output ++ rest.output, rest.ending, rest.database, answer.log ++ rest.log⟩

/-- A session on an input. -/
def run (prompt : String) (db : Database) (input : List UInt8) : Session :=
  let session := follow prompt db (inputLines input)
  { session with output := greeting ++ session.output }

end SqlStore.Shell
