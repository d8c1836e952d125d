import ByteGrammar.CommandLine.Arguments
import ByteGrammar.Grammar.File
import ByteGrammar.Naming.File
import ByteGrammar.Text.Hexadecimal

/-!
# The command

`run` carries out a request: it loads the naming, then the grammar, and saves the document. An output that
cannot be written is logged and is no failure.
-/

namespace ByteGrammar.CommandLine

/-- What a run leaves for its caller. -/
structure Report where
  exitCode : UInt8
  output : String := ""
  /-- The entries of the log. -/
  log : List String := []
  /-- What went wrong, for the user. -/
  complaint : Option String := none
  deriving DecidableEq, Repr, Inhabited

/-- The answer to a request for help. -/
def helpText : String :=
  "Lower a JSON BNF grammar with SMT bounds and guards into DDL source\n" ++
  "\n" ++
  "Usage: ddlift [OPTIONS] <GRAMMAR>\n" ++
  "\n" ++
  "Arguments:\n" ++
  "  <GRAMMAR>  Grammar hand-off document (JSON)\n" ++
  "\n" ++
  "Options:\n" ++
  "  -o, --output <OUTPUT>  Output file, or '-' to render without persisting [default: -]\n" ++
  "      --config <CONFIG>  Lowering configuration (JSON): entry_name, rule_prefix, " ++
  "index_var_prefix\n" ++
  "  -h, --help             Print help\n" ++
  "  -V, --version          Print version\n"

/-- The answer to a request for the version. -/
def versionText : String :=
  "ddlift 0.1.0\n"

/-- How a character stands in the log. The controls that a terminal could take for the start of a command
are shown by their number. -/
def logChar (c : Char) : List Char :=
  if c = '\x07' ∨ c = '\x08' ∨ c = '\x0c' ∨ c = '\x1b' ∨ c = '\x7f' then
    ['\\', 'x', Text.lowerDigit (c.toNat / 16), Text.lowerDigit (c.toNat % 16)]
  else if 0x80 ≤ c.toNat ∧ c.toNat ≤ 0x9f then
    ['\\', 'u', '\x7b'] ++ Text.lowerDigits c.toNat ++ ['\x7d']
  else [c]

/-- An entry of the log. -/
def logLine (level : Level) (message : String) : String :=
  level.name ++ " " ++ String.ofList (message.toList.flatMap logChar)

/-- The log entries for a list of events. Only what is worth the user's attention is logged. -/
def logLines (events : List Event) : List String :=
  (events.filter (·.level = .info)).map fun event => logLine event.level event.message

variable {m : Type → Type} [Monad m] [MonadFiles m]

/-- The naming of a run: the one in the given file, or the default one. -/
def loadNaming (config : Option String) : m (Except Naming.FileError Naming) :=
  match config with
  | none => return .ok {}
  | some path => Naming.load path

/-- Lowers a grammar file. -/
def runOptions (options : Options) : m Report := do
  match ← loadNaming options.config with
  | .error error =>
      return { exitCode := 1, complaint := some ("invalid lowering configuration: " ++ error.message) }
  | .ok naming =>
      match ← Grammar.load options.grammar with
      | .error error => return { exitCode := 1, complaint := some error.message }
      | .ok grammar =>
          match ← dump naming grammar options.output with
          | (.ok (.written _ _), events) => return { exitCode := 0, log := logLines events }
          | (.ok .notPersisted, events) =>
              return {
                exitCode := 0
                log := logLines events ++ [logLine .info "output is '-', nothing written"] }
          | (.error (.writing error), events) =>
              return { exitCode := 0, log := logLines events ++ [logLine .error error.message] }
          | (.error (.lowering error), events) =>
              return {
                exitCode := 1
                log := logLines events
                complaint := some ("failed to lower " ++ options.grammar ++ ": " ++ error.message) }

/-- Carries out what the arguments ask for. -/
def run (arguments : List String) : m Report :=
  match Request.ofArguments arguments with
  | .help => return { exitCode := 0, output := helpText }
  | .version => return { exitCode := 0, output := versionText }
  | .usageError => return { exitCode := 2, complaint := some "invalid arguments, try '--help'" }
  | .run options => runOptions options

end ByteGrammar.CommandLine
