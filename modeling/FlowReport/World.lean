import FlowReport.FileTree
import FlowReport.Text.Lines

/-!
# The world of a report

What the making of a report reads and changes: the file tree, standard input, the environment,
the programs that it calls, and the log. An action changes the world step by step; when it
fails, the steps before the failure stay done.
-/

namespace FlowReport

/-- How much a log line matters. -/
inductive Level where
  | debug
  | info
  | warning
  | error
  deriving DecidableEq, Repr

/-- The weight of a level; a log shows the lines from a given weight up. -/
def Level.weight : Level → Nat
  | debug => 10
  | info => 20
  | warning => 30
  | error => 40

/-- The name of a level. -/
def Level.name : Level → Text
  | debug => "DEBUG"
  | info => "INFO"
  | warning => "WARNING"
  | error => "ERROR"

/-- The part of the work that a log line comes from. -/
inductive Topic where
  | commandLine
  | assembly
  | primitives
  | pages
  | programs
  | report
  deriving DecidableEq, Repr

/-- The name of a topic in the log. -/
def Topic.name : Topic → Text
  | commandLine => "explore.cli"
  | assembly => "explore.ir"
  | primitives => "explore.primitive"
  | pages => "explore.render"
  | programs => "explore.tools"
  | report => "explore.explorer"

/-- A line of the log. -/
structure LogLine where
  level : Level
  topic : Topic
  message : Text
  deriving DecidableEq, Repr

/-- The text of a log line. -/
def LogLine.text (line : LogLine) : Text :=
  line.level.name ++ " " ++ line.topic.name ++ ": " ++ line.message

/-- The call of a program: its words, the environment it sees, the directory that it works in with
the files there, if it has one of its own, and the number of calls that were made before it. -/
structure Call where
  command : List Text
  env : Table Text
  directory : Option Path := none
  staged : Option (List (Address × Bytes)) := none
  earlier : Nat := 0
  deriving DecidableEq, Repr

/-- What a program does when it is called: the files and directories it writes, its exit status
and its two outputs. -/
structure Outcome where
  writes : List (Path × Node) := []
  status : Int := 0
  output : Text := []
  complaint : Text := []
  deriving DecidableEq, Repr

/-- The world of a report. `respond` says what each call leads to; it gives nothing for a
program that is not there. Since a call knows how many were made before it, a program that is called
twice in the same way may do different things. -/
structure World where
  tree : FileTree := {}
  directory : Address := []
  temporary : Address := []
  input : Bytes := []
  env : Table Text := []
  respond : Call → Option Outcome := fun _ => none
  calls : List Call := []
  log : List LogLine := []

/-- A step of the making of a report. -/
abbrev Action := ExceptT Error (StateM World)

namespace Action

variable {α : Type}

/-- Runs an action. -/
def perform (action : Action α) (w : World) : Except Error α × World := action.run w

/-- A result that may be an error, as an action. -/
def ofExcept : Except Error α → Action α
  | .ok a => pure a
  | .error e => throw e

/-- Adds a line to the log. -/
def log (level : Level) (topic : Topic) (message : Text) : Action Unit :=
  modify fun w => { w with log := w.log ++ [⟨level, topic, message⟩] }

/-- A path with a null character leads nowhere. -/
def hasNull (p : Path) : Bool := p.names.any ('\x00' ∈ ·)

/-- Stops at a path with a null character. -/
def checkNull (p : Path) : Action Unit := if hasNull p then throw .nullInPath else pure ()

/-- What a path leads to, if it leads anywhere. -/
def look (p : Path) : Action (Option Node) := do
  if hasNull p then return none
  let w ← get
  match w.tree.look w.directory p with
  | .ok node => return node
  | .error fault => throw (.file fault p.text)

/-- The path leads to a file. -/
def isFile (p : Path) : Action Bool := do
  match ← look p with
  | some (.file _) => return true
  | _ => return false

/-- The path leads to a file or a directory. -/
def isThere (p : Path) : Action Bool := return (← look p).isSome

/-- The content of a file. -/
def readBytes (p : Path) : Action Bytes := do
  checkNull p
  let w ← get
  match w.tree.read w.directory p with
  | .ok content => return content
  | .error fault => throw (.file fault p.text)

/-- Bytes as a text with unified line breaks. -/
def decoded (bytes : Bytes) : Action Text :=
  match Utf8.decode bytes with
  | .ok s => return s.unifyBreaks
  | .error e => throw (.encoding e)

/-- The text of a file. -/
def readText (p : Path) : Action Text := do decoded (← readBytes p)

/-- The text of a file, with U+FFFD in the place of what is no text. -/
def readLenient (p : Path) : Action Text := do
  return (Utf8.decodeLenient (← readBytes p)).unifyBreaks

/-- The text of standard input, which is then used up. -/
def readInput : Action Text := do
  let w ← get
  set { w with input := [] }
  decoded w.input

/-- Takes over a changed tree or stops with the fault. -/
def commit (p : Path) : Except FileFault FileTree → Action Unit
  | .ok t => modify fun w => { w with tree := t }
  | .error fault => throw (.file fault p.text)

/-- Writes a file. -/
def writeBytes (p : Path) (content : Bytes) : Action Unit := do
  checkNull p
  let w ← get
  commit p (w.tree.write w.directory p content)

/-- Writes the text of a file. -/
def writeText (p : Path) (s : Text) : Action Unit := writeBytes p (Utf8.encode s)

/-- Writes the wide text of a file, which stays empty if there is a surrogate in the text. -/
def writeWide (p : Path) (s : WideText) : Action Unit :=
  match Utf8.encodeWide s with
  | .ok content => writeBytes p content
  | .error e => do
    writeBytes p []
    throw (.surrogates e)

/-- Makes a directory that was not there. -/
def makeDirectory (p : Path) : Action Unit := do
  checkNull p
  let w ← get
  commit p (w.tree.makeDirectory w.directory p)

/-- Makes a directory and those above it, as far as they are not there. -/
def provideDirectories (p : Path) : Action Unit := do
  checkNull p
  let w ← get
  let (tree, stopped) := w.tree.provideDirectories w.directory p
  set { w with tree }
  if let some (fault, place) := stopped then throw (.file fault place.text)

/-- Makes a file or a directory, and the directories above it as far as they are not there. -/
def provide (p : Path) : Node → Action Unit
  | .directory => provideDirectories p
  | .file content => do
    provideDirectories p.parent
    writeBytes p content

/-- Removes a directory with all that is in it. -/
def removeTree (p : Path) : Action Unit := do
  let w ← get
  match w.tree.resolve w.directory p with
  | .error fault => throw (.file fault p.text)
  | .ok a =>
    match w.tree.get? a with
    | none => throw (.file .missing p.text)
    | some (.file _) => throw (.notATree p.text)
    | some .directory => set { w with tree := w.tree.remove a }

/-- Copies a file. -/
def copyFile (source target : Path) : Action Unit := do writeBytes target (← readBytes source)

/-- A name for a temporary directory that is not in use. -/
def freshName (w : World) : Text :=
  let name (k : Nat) : Text := "decomp-" ++ Numeral.ofNat k
  match (List.range (w.tree.entries.length + 1)).find? fun k =>
    (w.tree.get? (w.temporary ++ [name k])).isNone with
  | some k => name k
  | none => name w.tree.entries.length

/-- Runs an action with a new empty directory, which is removed with all that is in it when the
action ends, also if it fails. -/
def withDirectory (action : Path → Action α) : Action α := fun w =>
  let a := w.temporary ++ [freshName w]
  let (result, w) := action ⟨.slash, a⟩ { w with tree := w.tree.put a .directory }
  (result, { w with tree := w.tree.remove a })

end Action

end FlowReport
