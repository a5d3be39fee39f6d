import FlowReport.Page.Markup
import FlowReport.World

/-!
# Styles

The highlighting styles that a reader of a report can choose. Each has a style sheet of its own
in the report. An unknown style is replaced by the default one, with a warning. The rules inside
the style sheets belong to the highlighter and are not modelled: the files are empty.
-/

namespace FlowReport.Style

/-- The names of the styles, in order. -/
def names : List Text := List.map String.toList [
  "abap", "algol", "algol_nu", "arduino", "autumn", "borland", "bw", "coffee", "colorful",
  "default", "dracula", "emacs", "friendly", "friendly_grayscale", "fruity", "github-dark",
  "gruvbox-dark", "gruvbox-light", "igor", "inkpot", "lightbulb", "lilypond", "lovelace",
  "manni", "material", "monokai", "murphy", "native", "night-owl", "nord", "nord-darker",
  "one-dark", "paraiso-dark", "paraiso-light", "pastie", "perldoc", "rainbow_dash", "rrt", "sas",
  "solarized-dark", "solarized-light", "staroffice", "stata-dark", "stata-light", "tango",
  "trac", "vim", "vs", "xcode", "zenburn"]

/-- The style that stands in for unknown ones. -/
def fallback : Text := "default"

/-- The style of a report for which none is chosen. -/
def preferred : Text := "monokai"

/-- A known style by its name, the fallback for any other. -/
def resolve (name : Text) : Action Text :=
  if names.contains name then pure name
  else do
    Action.log .warning .pages
      ("unknown style " ++ name.quoted ++ "; using " ++ fallback.quoted)
    return fallback

/-- The choices of a selection list, with the current one selected. -/
def options (current : Text) (styles : List Text) : Text :=
  Text.join ['\n'] (styles.map fun name =>
    let selected : Text := if name = current then " selected" else []
    "\t\t\t<option value=\"" ++ Markup.safe name ++ "\"" ++ selected ++ ">" ++
      Markup.safe name ++ "</option>")

/-- The path of the style sheet of a style. -/
def sheetPath (directory : Path) (name : Text) : Path :=
  directory.child ("chroma_" ++ name ++ ".css")

/-- Writes the style sheet of a style. -/
def writeSheet (directory : Path) (name : Text) : Action Path := do
  let _ ← resolve name
  Action.writeBytes (sheetPath directory name) []
  return sheetPath directory name

/-- Writes the style sheets of styles into a directory. -/
def writeSheets (directory : Path) (styles : List Text) : Action (List Path) := do
  Action.provideDirectories directory
  let written ← styles.mapM (writeSheet directory)
  Action.log .debug .pages
    ("wrote " ++ Numeral.ofNat written.length ++ " style sheets to " ++ directory.text)
  return written

end FlowReport.Style
