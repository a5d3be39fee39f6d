/-!
# Slices

A stretch of a list between two positions. A negative position counts from the end of the
list, and positions beyond either end stand for that end.
-/

namespace FlowReport

variable {α : Type}

/-- A position as a number of items before it. -/
def clampPosition (length : Nat) (position : Int) : Nat :=
  if position < 0 then (position + length).toNat else min position.toNat length

/-- The items between two positions. -/
def slice (items : List α) (start stop : Int) : List α :=
  (items.take (clampPosition items.length stop)).drop (clampPosition items.length start)

/-- The item at a position; none beyond either end. -/
def itemAt? (items : List α) (position : Int) : Option α :=
  let position := if position < 0 then position + items.length else position
  if position < 0 then none else items[position.toNat]?

end FlowReport
