import FlowReport.Json.Basic

/-!
# JSON documents

A value as a document in ASCII: on one line, or with every item and field on a line of its own,
two blanks deeper than what holds it. Characters beyond ASCII are written as UTF-16 units.
-/

namespace FlowReport.Json

/-- A UTF-16 unit as an escape. -/
def unitEscape (n : Nat) : Text := '\\' :: 'u' :: Text.hex 4 n

/-- One character of a document's string. -/
def escapedChar (c : Char) : Text :=
  if c = '"' ∨ c = '\\' then ['\\', c]
  else if c = '\n' then ['\\', 'n']
  else if c = '\r' then ['\\', 'r']
  else if c = '\t' then ['\\', 't']
  else if c = '\x08' then ['\\', 'b']
  else if c = '\x0c' then ['\\', 'f']
  else if 0x20 ≤ c.toNat ∧ c.toNat ≤ 0x7e then [c]
  else if c.toNat < 0x10000 then unitEscape c.toNat
  else
    let n := c.toNat - 0x10000
    unitEscape (0xd800 + n / 0x400) ++ unitEscape (0xdc00 + n % 0x400)

/-- One code point of a document's string. -/
def escapedPoint : CodePoint → Text
  | .char c => escapedChar c
  | p => unitEscape p.value

/-- A string of a document. -/
def string (s : WideText) : Text := '"' :: s.flatMap escapedPoint ++ ['"']

/-- The words of doubles in documents. -/
def documentWords : Decimal.SpecialWords := ⟨"Infinity", "NaN"⟩

/-- A value that holds no others. -/
def scalar : Json → Text
  | .null => "null"
  | .bool true => "true"
  | .bool false => "false"
  | .int i => Numeral.ofInt i
  | .float f => Decimal.doubleText documentWords f.toBits.toNat
  | .str s => string s
  | .arr _ => "[]"
  | .obj _ => "{}"

mutual

/-- The value on one line. -/
def compact : Json → Text
  | .arr items => '[' :: Text.join ", " (compactItems items) ++ [']']
  | .obj fields => '{' :: Text.join ", " (compactFields fields) ++ ['}']
  | v => scalar v

/-- The items of an array, each on one line. -/
def compactItems : List Json → List Text
  | [] => []
  | v :: rest => compact v :: compactItems rest

/-- The fields of an object, each on one line. -/
def compactFields : List (WideText × Json) → List Text
  | [] => []
  | (k, v) :: rest => (string k ++ ": " ++ compact v) :: compactFields rest

end

/-- A line break and the indentation of a level. -/
def newLine (level : Nat) : Text := '\n' :: List.replicate (2 * level) ' '

mutual

/-- The value with its parts on lines of their own, at a level of nesting. -/
def indented (level : Nat) : Json → Text
  | .arr (v :: rest) =>
    '[' :: newLine (level + 1) ++ Text.join (',' :: newLine (level + 1))
      (indentedItems (level + 1) (v :: rest)) ++ newLine level ++ [']']
  | .obj (f :: rest) =>
    '{' :: newLine (level + 1) ++ Text.join (',' :: newLine (level + 1))
      (indentedFields (level + 1) (f :: rest)) ++ newLine level ++ ['}']
  | v => scalar v

/-- The items of an array. -/
def indentedItems (level : Nat) : List Json → List Text
  | [] => []
  | v :: rest => indented level v :: indentedItems level rest

/-- The fields of an object. -/
def indentedFields (level : Nat) : List (WideText × Json) → List Text
  | [] => []
  | (k, v) :: rest => (string k ++ ": " ++ indented level v) :: indentedFields level rest

end

end FlowReport.Json
