import FlowReport.Session
import Std.Time

/-!
# The program

Reads what a command's reports are made from, makes the reports, and writes what they changed.
The programs that a report calls are treated as not installed.
-/

namespace FlowReport.Program

/-- The address of an absolute path of the system. -/
def addressOf (path : String) : Address := (Path.ofText path).names

/-- The path of an address. -/
def pathOf (a : Address) : String := Text.toStr (Path.text ⟨.slash, a⟩)

/-- Puts a place into a tree, with the directories above it. -/
def record (t : FileTree) (a : Address) (node : Node) : FileTree :=
  (((List.range a.length).map a.take).foldl (fun t above => t.put above .directory) t).put a node

/-- Takes a file, or a directory with all that is in it, over from the system. -/
partial def take (t : FileTree) (a : Address) : IO FileTree := do
  let place := (← IO.currentDir) / pathOf a
  if ← place.isDir then
    let mut t := record t a .directory
    for entry in ← place.readDir do
      t ← take t (a ++ [entry.fileName.toList])
    return t
  else if ← place.pathExists then
    return record t a (.file (← IO.FS.readBinFile place).toList)
  else return t

/-- Takes what a path of the command leads to over into a world. -/
def takePath (w : World) (p : Path) : IO World := do
  let start := if p.root = .relative then w.directory else []
  let a := p.names.foldl (fun a name => if name = ['.', '.'] then a.dropLast else a ++ [name]) start
  return { w with tree := ← take w.tree a }

/-- Takes the companions of an input over: the module with debug information, the graphs, an old
report, and the source code. -/
def takeInput (w : World) (path : Text) : IO World := do
  let mut w := w
  for p in [Path.ofText path, Input.companion path "_dbg.ll", Input.companion path "_graphs",
      Input.companion path "_explore"] do
    w ← takePath w p
  let modules : Action (List Assembly.Module) := do
    let m ← Input.readModule path
    return [m] ++ (← Input.readDebugModule path).toList
  match (modules.perform w).1 with
  | .error _ => return w
  | .ok modules =>
    for p in modules.flatMap (Input.sourcePaths path) do
      w ← takePath w p
    return w

/-- The names of the variables that a report depends on. -/
def variableNames : List String :=
  ["EXPLORE_LL2GO", "EXPLORE_LL2DOT", "EXPLORE_RESTRUCTURE", "EXPLORE_DOT", "EXPLORE_LOG"]

/-- The environment of the program. -/
def environment : IO (Table Text) := do
  let mut env : Table Text := []
  for name in variableNames do
    if let some value ← IO.getEnv name then env := env.set name.toList value.toList
  return env

/-- Writes to the system what differs between two trees. -/
def store (before after : FileTree) : IO Unit := do
  for (a, node) in before.entries.reverse do
    if (after.get? a).isNone then
      match node with
      | .file _ => IO.FS.removeFile (pathOf a)
      | .directory => IO.FS.removeDirAll (pathOf a)
  for (a, node) in after.entries do
    if before.get? a ≠ some node then
      match node with
      | .file content => IO.FS.writeBinFile (pathOf a) ⟨content.toArray⟩
      | .directory => IO.FS.createDirAll (pathOf a)

/-- All of standard input. -/
partial def readAll (input : IO.FS.Stream) (got : ByteArray) : IO ByteArray := do
  let more ← input.read 65536
  if more.isEmpty then return got else readAll input (got ++ more)

/-- Carries out what a command asks for. -/
def carryOut (options : CommandLine.Options) (env : Table Text) : IO UInt32 := do
  let here := addressOf (toString (← IO.currentDir))
  let files := if options.files = [] then [Input.standard] else options.files
  let input ← if files.contains Input.standard then readAll (← IO.getStdin) .empty else pure .empty
  let mut w : World := { tree := record {} here .directory, directory := here, env
                         input := input.toList }
  for path in files do
    w ← takeInput w path
  let (status, after) := (Session.run options).perform w
  store w.tree after.tree
  let time := (← Std.Time.PlainDateTime.now).format "uuuu-MM-dd HH:mm:ss,SSS"
  if let .ok weight := Session.weight options then
    for line in Session.shown weight after.log do
      IO.eprintln (time ++ " " ++ line.text.toStr)
  match status with
  | .ok 0 => return 0
  | .ok _ => return 1
  | .error e =>
    IO.eprintln e.message.toStr
    return 1

end FlowReport.Program

open FlowReport Program in
/-- Makes the reports that the words of the command ask for. -/
def main (words : List String) : IO UInt32 := do
  let env ← environment
  match CommandLine.parse env (words.map String.toList) with
  | .error .help =>
    for line in Session.usage ++ Session.description do
      IO.println line
    return 0
  | .error (.usage e) =>
    for line in Session.usage do
      IO.eprintln line
    IO.eprint (Text.toStr (Session.usageText e))
    return 2
  | .ok options => carryOut options env
