/-!
# Shortest decimals

The shortest decimal that reads back as a given binary floating-point number, and of several
the one nearest to it. The number is `m · 2^q`; the reals that round to it form an interval
around it, with its ends if `m` is even. A decimal `n · 10^p` is a point of the grid of step
`10^p`. The coarsest grid with a point in the interval has the shortest decimals, and of its
points only the two neighbours of the number need a look.
-/

namespace FlowReport.Decimal

/-- A positive binary floating-point number `m · 2^q`. The number below it is half a step away
if `lowEdge` holds, as it does at the foot of a binade. -/
structure Binary where
  m : Nat
  q : Int
  lowEdge : Bool
  deriving DecidableEq, Repr

/-- The decimal `n · 10^p`, a point of the grid of step `10^p`. -/
structure GridPoint where
  n : Nat
  p : Int
  deriving DecidableEq, Repr

namespace Binary

/-- The weight of a quarter of the last binary place against the grid of step `10^p`. -/
def quarter (b : Binary) (p : Int) : Nat := Nat.pow 2 (b.q - 2).toNat * Nat.pow 10 (-p).toNat

/-- The weight of the step of the grid against a quarter of the last binary place. -/
def unit (b : Binary) (p : Int) : Nat := Nat.pow 10 p.toNat * Nat.pow 2 (2 - b.q).toNat

/-- The point `n` of the grid lies in the interval. -/
def covers (b : Binary) (p : Int) (n : Nat) : Bool :=
  let low := (4 * b.m - if b.lowEdge then 1 else 2) * b.quarter p
  let high := (4 * b.m + 2) * b.quarter p
  let point := n * b.unit p
  0 < n && if b.m % 2 = 0 then low ≤ point && point ≤ high else low < point && point < high

/-- The point of the grid that is nearest to the number, if one lies in the interval. Of two
equally near points it is the even one. -/
def nearest? (b : Binary) (p : Int) : Option Nat :=
  let number := 4 * b.m * b.quarter p
  let below := number / b.unit p
  let excess := number % b.unit p
  match b.covers p below, b.covers p (below + 1) with
  | true, true =>
    if 2 * excess < b.unit p ∨ (2 * excess = b.unit p ∧ below % 2 = 0) then some below
    else some (below + 1)
  | true, false => some below
  | false, true => some (below + 1)
  | false, false => none

/-- The finest grid that is ever needed has the step `10^-324`. -/
def finest : Int := -324

/-- The decimal on the coarsest grid, from the grid `k` steps above the finest one down. -/
def search (b : Binary) : (k : Nat) → GridPoint
  | 0 => ⟨(b.nearest? finest).getD 0, finest⟩
  | k + 1 =>
    match b.nearest? (finest + (k + 1 : Nat)) with
    | some n => ⟨n, finest + (k + 1 : Nat)⟩
    | none => search b k

/-- The shortest decimal; no double reaches beyond the grid of step `10^308`. -/
def shortest (b : Binary) : GridPoint := search b 632

end Binary

end FlowReport.Decimal
