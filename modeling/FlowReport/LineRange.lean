import FlowReport.Error
import FlowReport.Slice
import FlowReport.Text.Lines

/-!
# Line ranges

Where a fragment stands in a text, in lines counted from one. The range of a fragment is that
of its first occurrence, and a line feed at its end does not reach into the next line.
-/

namespace FlowReport

/-- The lines from `first` to `last`, both included. -/
structure LineRange where
  first : Int
  last : Int
  deriving DecidableEq, Repr

namespace LineRange

/-- The fragment without one line feed at its end. -/
def withoutFinalBreak (fragment : Text) : Text :=
  if fragment.getLast? = some '\n' then fragment.dropLast else fragment

/-- The lines of the first occurrence of a fragment in a container. -/
def locate? (container fragment : Text) : Option LineRange :=
  (Text.cutBefore? fragment container).map fun (before, _) =>
    let first := before.count '\n' + 1
    ⟨first, first + (withoutFinalBreak fragment).count '\n'⟩

/-- The lines of the first occurrence of a fragment, or the error that there is none. -/
def locate (container fragment : Text) : Except Error LineRange :=
  match locate? container fragment with
  | some r => .ok r
  | none => .error (.notLocated fragment container)

/-- The lines of a text in a range, with their breaks. -/
def extract (text : Text) (range : LineRange) : Text :=
  (slice text.fullLines (range.first - 1) range.last).flatten

/-- The line numbers of a range. -/
def numbers (r : LineRange) : List Int :=
  (List.range (r.last - r.first + 1).toNat).map fun (k : Nat) => r.first + k

/-- The line numbers that lie in at least one of the ranges, in order and each once. -/
def expand (ranges : List LineRange) : List Int :=
  dedup ((ranges.flatMap numbers).mergeSort (· ≤ ·))
where
  /-- Drops repetitions of neighbours. -/
  dedup : List Int → List Int
    | a :: b :: rest => if a = b then dedup (b :: rest) else a :: dedup (b :: rest)
    | rest => rest

end LineRange

end FlowReport
