import FlowReport.Text.Wide

/-!
# Markup

Texts inside pages. In running text three characters would be read as markup; in the value of an
attribute the two quotes would too.
-/

namespace FlowReport.Markup

/-- A character of running text. -/
def textChar (c : Char) : Text :=
  if c = '&' then "&amp;"
  else if c = '<' then "&lt;"
  else if c = '>' then "&gt;"
  else [c]

/-- A character that may stand anywhere in a page. -/
def safeChar (c : Char) : Text :=
  if c = '"' then "&quot;"
  else if c = '\'' then "&#x27;"
  else textChar c

/-- A text between tags. -/
def inText (s : Text) : Text := s.flatMap textChar

/-- A text anywhere in a page. -/
def safe (s : Text) : Text := s.flatMap safeChar

/-- A code point that may stand anywhere in a page. -/
def safePoint : CodePoint → WideText
  | .char c => (safeChar c).wide
  | p => [p]

/-- A wide text anywhere in a page. -/
def safeWide (s : WideText) : WideText := s.flatMap safePoint

theorem safeWide_wide (s : Text) : safeWide s.wide = (safe s).wide := by
  simp [safeWide, safe, Text.wide, safePoint, List.flatMap_map, List.map_flatMap]

end FlowReport.Markup
