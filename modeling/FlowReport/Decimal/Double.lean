import FlowReport.Decimal.Shortest
import FlowReport.Text.Numeral

/-!
# Doubles as text

A double is written with the fewest digits that read back, in positional notation if its first
digit stands between the fourth place behind the point and the sixteenth before it, and with an
exponent otherwise. What is neither finite nor a number has a word of its own.
-/

namespace FlowReport.Decimal

/-- The words for what is no finite number, without a sign. -/
structure SpecialWords where
  infinity : Text
  notANumber : Text

/-- The parts of a double. -/
inductive Parts where
  | notANumber
  | infinity (negative : Bool)
  | zero (negative : Bool)
  | finite (negative : Bool) (magnitude : Binary)
  deriving DecidableEq, Repr

/-- The weight of the bit above the fraction of a double. -/
def fractionEnd : Nat := Nat.pow 2 52

/-- Takes a double apart: one sign bit, eleven bits of exponent, fifty-two of fraction. -/
def Parts.ofBits (bits : Nat) : Parts :=
  let negative : Bool := bits / fractionEnd / 2048 % 2 = 1
  let exponent : Nat := bits / fractionEnd % 2048
  let fraction : Nat := bits % fractionEnd
  if exponent = 2047 then if fraction = 0 then .infinity negative else .notANumber
  else if exponent = 0 then
    if fraction = 0 then .zero negative else .finite negative ⟨fraction, -1074, false⟩
  else
    .finite negative ⟨fraction + fractionEnd, (exponent : Int) - 1075, fraction = 0 ∧ 1 < exponent⟩

/-- Places with zeros in front of the digits or behind them, and the point. -/
def positional (digits : Text) (p : Int) : Text :=
  if 0 ≤ p then digits ++ List.replicate p.toNat '0' ++ ['.', '0']
  else
    let places := (-p).toNat
    if places < digits.length then
      digits.take (digits.length - places) ++ '.' :: digits.drop (digits.length - places)
    else '0' :: '.' :: List.replicate (places - digits.length) '0' ++ digits

/-- One digit before the point and an exponent of at least two digits. -/
def scientific (digits : Text) (exponent : Int) : Text :=
  let fraction : Text := if digits.length ≤ 1 then [] else '.' :: digits.drop 1
  let sign := if exponent < 0 then '-' else '+'
  digits.take 1 ++ fraction ++ 'e' :: sign :: Numeral.padded 2 exponent.natAbs

/-- Writes a decimal. -/
def GridPoint.text (d : GridPoint) : Text :=
  let digits := Numeral.ofNat d.n
  let exponent := d.p + digits.length - 1
  if -4 ≤ exponent ∧ exponent < 16 then positional digits d.p else scientific digits exponent

/-- Puts a minus in front. -/
def signed (negative : Bool) (s : Text) : Text := if negative then '-' :: s else s

/-- Writes a double given by its bits. -/
def doubleText (words : SpecialWords) (bits : Nat) : Text :=
  match Parts.ofBits bits with
  | .notANumber => words.notANumber
  | .infinity negative => signed negative words.infinity
  | .zero negative => signed negative "0.0"
  | .finite negative b => signed negative b.shortest.text

/-- The double nearest to `n · 10^e`; far beyond the range of doubles no power is taken. -/
def toDouble (negative : Bool) (n : Nat) (e : Int) : Float :=
  let exponent := (Numeral.ofNat n).length + e
  let magnitude : Float :=
    if n = 0 ∨ exponent < -400 then 0.0
    else if 400 < exponent then 1.0 / 0.0
    else Float.ofScientific n (e < 0) e.natAbs
  if negative then -magnitude else magnitude

end FlowReport.Decimal
