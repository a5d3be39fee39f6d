import FlowReport.Assembly.Module
import FlowReport.World

/-!
# Inputs

The assembly file that a report is about, and what lies beside it: the same module with debug
information, and the source code. A dash stands for standard input.
-/

namespace FlowReport.Input

open Assembly

/-- The path that stands for standard input. -/
def standard : Text := ['-']

/-- The path of an input without its ending, from which the names of its companions are made. -/
def base (path : Text) : Text :=
  if path = standard then "stdin"
  else
    let p := Path.ofText path
    if p.suffix = [] then path else (p.withSuffix []).text

/-- The name of the file that an input is staged under. -/
def fileName (path : Text) : Text :=
  if path = standard then "stdin.ll" else (Path.ofText path).name

/-- The path of a companion of an input. -/
def companion (path ending : Text) : Path := Path.ofText (base path ++ ending)

/-- Reads a module from a text. -/
def moduleOf (text name : Text) : Action Module := do
  let m ← Action.ofExcept ((Module.ofText text name).mapError .module)
  Action.log .debug .assembly
    ("parsed " ++ Numeral.ofNat m.funcs.length ++ " function definitions from " ++ name)
  return m

/-- Reads the module of an input. -/
def readModule (path : Text) : Action Module := do
  if path = standard then
    Action.log .info .assembly "parsing standard input"
    moduleOf (← Action.readInput) "stdin"
  else
    Action.log .info .assembly ("parsing file " ++ path.quoted)
    moduleOf (← Action.readText (Path.ofText path)) path

/-- Reads the module with debug information beside an input, if there is one. -/
def readDebugModule (path : Text) : Action (Option Module) := do
  if path = standard then return none
  let companion := companion path "_dbg.ll"
  if ← Action.isFile companion then return some (← readModule companion.text)
  else return none

/-- The paths where the source code of a module may be, the likeliest first: the recorded file,
the recorded name from here and from the directory of the input, and the companion. -/
def sourcePaths (path : Text) (m : Module) : List Path :=
  let recorded := (m.sourceFile?.map SourceFile.path).toList
  let named :=
    match m.sourceFilename with
    | none | some [] => []
    | some name =>
      if path = standard then [Path.ofText name]
      else [Path.ofText name, (Path.ofText path).parent.child name]
  recorded ++ named ++ [companion path ".c"]

/-- The first of some paths that leads to a file. -/
def firstFile? : List Path → Action (Option Path)
  | [] => return none
  | p :: rest => do
    if ← Action.isFile p then return some p
    else firstFile? rest

/-- The path of the source code of a module, if there is any. -/
def sourcePath? (path : Text) (m : Module) : Action (Option Path) :=
  firstFile? (sourcePaths path m)

end FlowReport.Input
