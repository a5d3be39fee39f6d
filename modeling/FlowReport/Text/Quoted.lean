import FlowReport.Text.Basic

/-!
# Quoted texts

A text as a literal for messages. It stands between single quotes, or between double quotes if
it holds a single quote and no double one. The quote in use, the backslash and every character
that does not print are escaped: three by a letter, the others by two, four or eight
hexadecimal digits, as few as hold the code point.
-/

namespace FlowReport.Text

/-- The hexadecimal numeral of a code point in lower case, at least `width` digits wide. -/
def hex (width n : Nat) : Text :=
  let digits := Nat.toDigits 16 n
  List.replicate (width - digits.length) '0' ++ digits

/-- One character of a quoted text. -/
def quotedChar (quote c : Char) : Text :=
  if c = quote ∨ c = '\\' then ['\\', c]
  else if c = '\n' then ['\\', 'n']
  else if c = '\r' then ['\\', 'r']
  else if c = '\t' then ['\\', 't']
  else if isPrintable c then [c]
  else if c.toNat < 0x100 then '\\' :: 'x' :: hex 2 c.toNat
  else if c.toNat < 0x10000 then '\\' :: 'u' :: hex 4 c.toNat
  else '\\' :: 'U' :: hex 8 c.toNat

/-- The quote that encloses a text in messages. -/
def quoteMark (s : Text) : Char := if '\'' ∈ s ∧ '"' ∉ s then '"' else '\''

/-- The text as a literal. -/
def quoted (s : Text) : Text :=
  let mark := quoteMark s
  mark :: s.flatMap (quotedChar mark) ++ [mark]

end FlowReport.Text
