import SqlStore.Log

/-!
# Options of the command line

What the arguments of the shell ask for.
-/

namespace SqlStore.Shell

/-- The least urgent level that is written, if any is. -/
structure LogFilter where
  limit : Option LogLevel
deriving DecidableEq

namespace LogFilter

/-- The filter of a name; the levels above warnings are never reported on, so they admit nothing. -/
def ofName? : String → Option LogFilter
  | "off" | "error" => some ⟨none⟩
  | "warn" | "info" => some ⟨some .warn⟩
  | "debug" => some ⟨some .debug⟩
  | "trace" => some ⟨some .trace⟩
  | _ => none

def admits (f : LogFilter) (level : LogLevel) : Bool :=
  match f.limit, level with
  | some .trace, _ => true
  | some .debug, .trace => false
  | some .debug, _ => true
  | some .warn, .warn => true
  | _, _ => false

end LogFilter

/-- A source text to run instead of a session, the prompt of a session, and what is logged. -/
structure Options where
  source : Option String
  prompt : String
  logFilter : LogFilter
deriving DecidableEq

namespace Options

def default : Options := ⟨none, "# ", ⟨some .warn⟩⟩

def usage : String :=
  "Interactive shell for the tinysql in-memory SQL engine\n\n" ++
  "Usage: tinysql [OPTIONS]\n\n" ++
  "Options:\n" ++
  "  -c, --command <COMMAND>      Execute the given SQL and exit\n" ++
  "      --prompt <PROMPT>        Prompt printed before each line [default: \"# \"]\n" ++
  "      --log-level <LOG_LEVEL>  Least urgent level that is logged [default: warn]\n" ++
  "  -h, --help                   Print help\n"

/-- The options with some arguments taken into account; `none` asks for the usage. -/
def read (o : Options) : List String → Except String (Option Options)
  | [] => .ok (some o)
  | "-h" :: _ | "--help" :: _ => .ok none
  | "-c" :: source :: rest | "--command" :: source :: rest => read { o with source := some source } rest
  | "--prompt" :: prompt :: rest => read { o with prompt := prompt } rest
  | "--log-level" :: level :: rest =>
      match LogFilter.ofName? level with
      | some f => read { o with logFilter := f } rest
      | none => .error ("unknown log level " ++ level)
  | argument :: _ => .error ("unexpected argument " ++ argument)

end Options

end SqlStore.Shell
