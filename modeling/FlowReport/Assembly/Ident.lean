import FlowReport.Text.Numeral

/-!
# Identifiers

Names of functions, blocks, parameters and results. A bare identifier is a run of letters,
digits and `-`, `$`, `.`, `_`; a quoted one may hold any character, with bytes escaped as a
backslash and two hexadecimal digits.
-/

namespace FlowReport.Assembly

/-- The characters of bare identifiers. -/
def isBare (c : Char) : Bool :=
  ('a' ≤ c ∧ c ≤ 'z') || ('A' ≤ c ∧ c ≤ 'Z') || ('0' ≤ c ∧ c ≤ '9') ||
    c == '-' || c == '$' || c == '.' || c == '_'

/-- The value of an ASCII hexadecimal digit. -/
def hexDigit? (c : Char) : Option Nat :=
  if '0' ≤ c ∧ c ≤ '9' then some (c.toNat - '0'.toNat)
  else if 'a' ≤ c ∧ c ≤ 'f' then some (c.toNat - 'a'.toNat + 10)
  else if 'A' ≤ c ∧ c ≤ 'F' then some (c.toNat - 'A'.toNat + 10)
  else none

/-- The byte that two hexadecimal digits write. -/
def hexByte? (a b : Char) : Option Nat :=
  match hexDigit? a, hexDigit? b with
  | some x, some y => some (x * 16 + y)
  | _, _ => none

/-- Each escaped byte as the character of that code point; any other backslash stays. -/
def unescape : Text → Text
  | '\\' :: a :: b :: s =>
    match hexByte? a b with
    | some n => Char.ofNat n :: unescape s
    | none => '\\' :: unescape (a :: b :: s)
  | c :: s => c :: unescape s
  | [] => []

/-- An identifier as it is written. -/
inductive Ident where
  | quoted (body : Text)
  | bare (text : Text)
  deriving DecidableEq, Repr

namespace Ident

/-- The name that an identifier stands for. -/
def name : Ident → Text
  | quoted body => unescape body
  | bare text => text

/-- The identifier is a number: bare, with digits only. -/
def isNumber : Ident → Bool
  | quoted _ => false
  | bare text => text.all fun c => '0' ≤ c ∧ c ≤ '9'

/-- The body of a quoted identifier, up to the first quote that no backslash precedes, and the
rest behind that quote. -/
def quotedBody? : Text → Option (Text × Text)
  | [] => none
  | '"' :: s => some ([], s)
  | '\\' :: c :: s =>
    if c = '\n' then none else (quotedBody? s).map fun (b, r) => ('\\' :: c :: b, r)
  | c :: s => if c = '\\' then none else (quotedBody? s).map fun (b, r) => (c :: b, r)

/-- Reads the longest identifier at the start of a text. -/
def read? (s : Text) : Option (Ident × Text) :=
  match s with
  | '"' :: r => (quotedBody? r).map fun (b, r) => (quoted b, r)
  | _ =>
    match s.takeWhile isBare with
    | [] => none
    | w => some (bare w, s.dropWhile isBare)

end Ident

/-- Reads an exclamation mark and decimal digits: a reference to a metadata node. -/
def metadataRef? (s : Text) : Option (Text × Text) :=
  match s with
  | '!' :: r =>
    match r.takeWhile isDecimal with
    | [] => none
    | ds => some ('!' :: ds, r.dropWhile isDecimal)
  | _ => none

/-- The first debug reference of a line: `!dbg`, blanks and a metadata reference. -/
def debugRef? : Text → Option Text
  | [] => none
  | c :: s =>
    let here : Option Text := do
      let r ← Text.dropPrefix? "!dbg" (c :: s)
      let r' := Text.dropBlank r
      if r'.length = r.length then none
      else (metadataRef? r').map (·.1)
    here.orElse fun _ => debugRef? s

end FlowReport.Assembly
