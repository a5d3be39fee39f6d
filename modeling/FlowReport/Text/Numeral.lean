import FlowReport.Text.Quoted

/-!
# Numerals

Whole numbers as texts and back. A numeral of more than 4300 decimal digits is neither read nor
written. Digits of every script are read; those that are no decimal digits, such as
superscripts, make a numeral malformed. A literal may have a sign, a base prefix and single
underscores between its digits, and a decimal literal other than zero has no leading zero.
-/

namespace FlowReport

/-- Why a numeral was not read or a number not written. -/
inductive NumeralError where
  | malformed (text : Text)
  | tooManyDigits (count : Nat)
  | tooLargeToWrite
  deriving DecidableEq, Repr

namespace Numeral

/-- The most decimal digits that are read or written. -/
def digitLimit : Nat := 4300

/-- The decimal numeral of a number. -/
def ofNat (n : Nat) : Text := Nat.toDigits 10 n

/-- The decimal numeral of an integer. -/
def ofInt : Int → Text
  | .ofNat n => ofNat n
  | .negSucc n => '-' :: ofNat (n + 1)

/-- The decimal numeral, with zeros in front up to the width. -/
def padded (width n : Nat) : Text :=
  let digits := ofNat n
  List.replicate (width - digits.length) '0' ++ digits

/-- The value of decimal digits, most significant first, after the value `acc`. -/
def valueFrom (base acc : Nat) (digits : List Nat) : Nat :=
  digits.foldl (fun n d => n * base + d) acc

/-- The value of a run of decimal digits; other characters do not count. -/
def value (s : Text) : Nat := valueFrom 10 0 (s.filterMap decimal?)

/-- Reads a nonempty text of characters that are digits in the wide sense. -/
def read (s : Text) : Except NumeralError Nat :=
  let count := (s.takeWhile isDecimal).length
  if digitLimit < count then .error (.tooManyDigits count)
  else if s.all isDecimal then .ok (value s)
  else .error (.malformed s)

/-- Writes a number, if its numeral is short enough. -/
def write (n : Nat) : Except NumeralError Text :=
  let digits := ofNat n
  if digits.length ≤ digitLimit then .ok digits else .error .tooLargeToWrite

/-- The value of a digit in a base of up to sixteen. -/
def digit? (base : Nat) (c : Char) : Option Nat :=
  let value? :=
    match decimal? c with
    | some d => some d
    | none =>
      if 'a' ≤ c ∧ c ≤ 'f' then some (c.toNat - 'a'.toNat + 10)
      else if 'A' ≤ c ∧ c ≤ 'F' then some (c.toNat - 'A'.toNat + 10)
      else none
  value?.filter (· < base)

/-- The digits of a literal, with single underscores between digits; `afterDigit` says
whether an underscore may come next. -/
def literalDigits? (base : Nat) : (afterDigit : Bool) → Text → Option (List Nat)
  | afterDigit, [] => if afterDigit then some [] else none
  | afterDigit, c :: s =>
    if c = '_' then if afterDigit then literalDigits? base false s else none
    else (digit? base c).bind fun d => (literalDigits? base true s).map (d :: ·)

/-- A literal without its sign. The prefixes `0x`, `0o` and `0b` choose the base and may be
followed by an underscore. -/
def magnitude? (s : Text) : Option Nat :=
  let prefixed (base : Nat) (digits : Text) : Option Nat :=
    (literalDigits? base false ((Text.dropPrefix? ['_'] digits).getD digits)).map
      (valueFrom base 0)
  let plain : Option Nat := do
    let digits ← literalDigits? 10 false s
    let n := valueFrom 10 0 digits
    if digitLimit < digits.length then none
    else if digits.head? = some 0 ∧ n ≠ 0 then none
    else some n
  match s with
  | z :: 'x' :: r | z :: 'X' :: r => if decimal? z = some 0 then prefixed 16 r else none
  | z :: 'o' :: r | z :: 'O' :: r => if decimal? z = some 0 then prefixed 8 r else none
  | z :: 'b' :: r | z :: 'B' :: r => if decimal? z = some 0 then prefixed 2 r else none
  | _ => plain

/-- Reads an integer literal. -/
def literal? (s : Text) : Option Int :=
  match s with
  | '-' :: r => (magnitude? r).map fun n => -(n : Int)
  | '+' :: r => (magnitude? r).map Int.ofNat
  | _ => (magnitude? s).map Int.ofNat

end Numeral

end FlowReport
