import FlowReport.CommandLine
import FlowReport.Report.Explore

/-!
# Sessions

A session makes the reports that a command asks for, one file after the other, and ends with an
exit status. The first error stops it and goes to the log. The log is shown from the level up
that the command names.
-/

namespace FlowReport.Session

open CommandLine

/-- Makes the report about one file. -/
def exploreFile (options : Options) (config : Config) (path : Text) : Action Unit := do
  let m ← Input.readModule path
  if m.funcs.isEmpty then
    Action.log .warning .commandLine
      ("unable to locate function definitions in " ++ path.quoted)
  else
    let r ← Report.about path m options.style config
    if options.generate then r.generate options.functions options.force
    let r ← r.init options.force
    let _ ← r.explore options.functions

/-- Makes the reports about all files, or about standard input if there are none. -/
def exploreFiles (options : Options) : Action Unit := do
  let config := Config.ofEnv (← get).env
  let files := if options.files = [] then [Input.standard] else options.files
  files.forM (exploreFile options config)

/-- A letter as the capital ones that it stands for, as far as they are in names of levels. -/
def capital (c : Char) : Text :=
  if c = 'ı' then ['I']
  else if c = 'ſ' then ['S']
  else if c = 'ﬅ' ∨ c = 'ﬆ' then ['S', 'T']
  else [c.toUpper]

/-- The weights of log levels by their names. Two names are taken by the formats of log lines. -/
def levels : Table (Except LevelError Nat) := [
  ("DEBUG", .ok 10), ("INFO", .ok 20), ("WARNING", .ok 30), ("WARN", .ok 30),
  ("ERROR", .ok 40), ("CRITICAL", .ok 50), ("FATAL", .ok 50), ("NOTSET", .ok 0),
  ("BASIC_FORMAT", .error .format), ("_STYLES", .error .formats)]

/-- The weight from which a log is shown: by the name of a level in any case, and that of `INFO`
for unknown names. -/
def threshold : (name : Option Text) → Except LevelError Nat
  | none => .error .noName
  | some name => (levels.get? (name.flatMap capital)).getD (.ok Level.info.weight)

/-- The weight from which the log of a session is shown. -/
def weight (options : Options) : Except LevelError Nat :=
  if options.quiet then .ok Level.warning.weight else Session.threshold options.logLevel

/-- An error that ends a session with a line in the log. A style or a level that is missing, a
position that no list has and a document that nests too deep end it at once. -/
def isLogged : Error → Bool
  | .noStyle | .level _ | .noSuchItem | .indexTooLarge | .document (.tooDeep _) => false
  | _ => true

/-- Makes the reports that a command asks for and returns the exit status. -/
def run (options : Options) : Action Nat := do
  let _ ← Action.ofExcept ((weight options).mapError .level)
  tryCatch (do exploreFiles options; return 0) fun e => do
    if !isLogged e then throw e
    Action.log .error .commandLine e.message
    return 1

/-- The lines of a log from a weight up. -/
def shown (weight : Nat) (log : List LogLine) : List LogLine :=
  log.filter fun line => weight ≤ line.level.weight

/-- How a command is written. -/
def usage : List String := [
  "usage: explore [-h] [-f] [-funcs NAMES] [-q] [-style STYLE] [-gen] [--log-level LOG_LEVEL]",
  "               [FILE.ll ...]"]

/-- What the program is for and what the words of a command mean. -/
def description : List String := [
  "",
  "Visualize the control flow analysis of LLVM IR assembly files.",
  "",
  "For each function of foo.ll the output directory foo_explore/ holds one page",
  "per analysis step, showing the original C source, the LLVM IR, the control",
  "flow graph and the decompiled Go source side by side.  The control flow",
  "graphs and primitives are read from foo_graphs/ (see -gen).",
  "",
  "positional arguments:",
  "  FILE.ll               LLVM IR assembly files (default: standard input)",
  "",
  "options:",
  "  -h, --help            show this help message and exit",
  "  -f                    Force overwrite existing explore directories",
  "  -funcs NAMES          Comma-separated list of functions to visualize (default: all)",
  "  -q                    Suppress non-error messages",
  "  -style STYLE          Syntax highlighting style (default monokai)",
  "  -gen                  Generate control flow graphs and primitives before exploring",
  "  --log-level LOG_LEVEL",
  "                        Logging level (default INFO, or $EXPLORE_LOG)"]

/-- The text that tells what is wrong with a command. -/
def usageText (e : UsageError) : Text := "explore: error: " ++ e.message ++ ['\n']

end FlowReport.Session
