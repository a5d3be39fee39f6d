import FlowReport.LineRange
import FlowReport.Page.Style

/-!
# Code tables

A text as a table of line numbers and lines, in which the lines of some ranges are highlighted: the
ranges are expanded to the numbers of their lines, and the lines with these numbers are marked. The
text is prepared first: a byte order mark at its start goes, line breaks become line feeds,
tabs become blanks, and the last line is ended.
-/

namespace FlowReport.CodeTable

/-- The distance of tab stops. -/
def tabWidth : Nat := 3

/-- Blanks for tabs, from the column at which the text begins. -/
def expandTabs : (column : Nat) → Text → Text
  | _, [] => []
  | column, c :: s =>
    if c = '\t' then
      let width := tabWidth - column % tabWidth
      List.replicate width ' ' ++ expandTabs (column + width) s
    else c :: expandTabs (if c = '\n' then 0 else column + 1) s

/-- The text with a line feed at its end. -/
def closed (s : Text) : Text := if s.getLast? = some '\n' then s else s ++ ['\n']

/-- The text of a table. -/
def prepared (s : Text) : Text :=
  let s : Text := if s.head? = some '\ufeff' then s.drop 1 else s
  closed (expandTabs 0 s.unifyBreaks)

/-- The lines of a text in which every line is ended, without the line feeds. -/
def rows (s : Text) : List Text := (Text.split '\n' s).dropLast

/-- A numeral with blanks in front up to a width. -/
def aligned (width number : Nat) : Text :=
  let digits := Numeral.ofNat number
  List.replicate (width - digits.length) ' ' ++ digits

/-- The cell of a line number. -/
def numberCell (width number : Nat) : Text :=
  "<span class=\"normal\">" ++ aligned width number ++ "</span>"

/-- The cell of a line. -/
def lineCell (marked : Bool) (line : Text) : Text :=
  let cell : Text := Markup.inText line ++ ['\n']
  if marked then "<span class=\"hll\">" ++ cell ++ "</span>" else cell

/-- The table of a text, in which the lines with some numbers are marked. -/
def table (source : Text) (marked : List Int) : Text :=
  let lines := rows (prepared source)
  let numbers := (List.range lines.length).map (· + 1)
  let width := (Numeral.ofNat lines.length).length
  "<div class=\"chroma\"><table class=\"chromatable\"><tr><td class=\"linenos\">" ++
    "<div class=\"linenodiv\"><pre>" ++
    Text.join ['\n'] (numbers.map (numberCell width)) ++
    "</pre></div></td><td class=\"code\"><div><pre><span></span>" ++
    ((lines.zip numbers).flatMap fun (line, number) => lineCell ((number : Int) ∈ marked) line) ++
    "</pre></div></td></tr></table></div>\n"

/-- The only language that has no rules to apply. -/
def plainLanguage : Text := "text"

/-- The table of a text in a language. No other language has rules here, so each is treated as
plain text. -/
def highlighted (source language style : Text) (ranges : List LineRange) : Action Text := do
  let _ ← Style.resolve style
  if language.lowerAscii ≠ plainLanguage then
    Action.log .debug .pages ("no lexer for " ++ language.quoted ++ "; using plain text")
  return table source (LineRange.expand ranges)

end FlowReport.CodeTable
