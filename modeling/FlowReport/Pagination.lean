import FlowReport.Error
import FlowReport.Slice

/-!
# Pagination

The pages of an analysis. Page 1 shows a function before anything is recovered, at step 0.
Every recovered primitive then has two pages, one before it is merged and one after:

* page `1` shows step `0`,
* page `2k` shows step `k` before the merge,
* page `2k + 1` shows step `k` after the merge.
-/

namespace FlowReport

/-- The part of a step that a page shows. -/
inductive SubStep where
  | initial
  | before
  | after
  deriving DecidableEq, Repr

/-- The letter of a part, which puts the files of a step in order. -/
def SubStep.letter : SubStep → Text
  | initial => ""
  | before => "a"
  | after => "b"

/-- A page: its number, its place in the analysis, the primitives recovered so far and the one
that is being merged. -/
structure Page (α : Type) where
  number : Nat
  step : Nat
  subStep : SubStep
  recovered : List α
  active : Option α

namespace Page

variable {α : Type}

/-- What a page shows, in words. -/
def description (p : Page α) : Text :=
  match p.subStep with
  | .before => "before merge in step " ++ Numeral.ofNat p.step
  | .after => "after merge in step " ++ Numeral.ofNat p.step
  | .initial => "initial control flow graph"

end Page

namespace Pagination

variable {α : Type}

/-- The number of pages for a list of primitives. -/
def count (prims : List α) : Nat := 1 + 2 * prims.length

/-- The step and the part of a page. -/
def place (number : Nat) : Nat × SubStep :=
  if number = 1 then (0, .initial)
  else
    let k := number - 1
    ((k + 1) / 2, if k % 2 = 1 then .before else .after)

/-- The step and the part of a page, or the error that there is no such page. -/
def place? (number : Int) (prims : List α) : Except Error (Nat × SubStep) :=
  if 1 ≤ number ∧ number ≤ count prims then .ok (place number.toNat)
  else .error (.pageOutOfRange number (count prims))

/-- The primitives recovered at a step; a step below zero counts from the end. -/
def recovered (step : Int) (subStep : SubStep) (prims : List α) : List α :=
  match subStep with
  | .before => slice prims 0 (step - 1)
  | .after => slice prims 0 step
  | .initial => []

/-- The primitive merged at a step of the list; step 0 has none. -/
def active (step : Nat) (prims : List α) : Option α :=
  if step = 0 then none else prims[step - 1]?

/-- The first number that is too large for a position, which is a signed word of 64 bits. -/
def positionBound : Int := 0x8000000000000000

/-- The primitive merged at a step, which may also count from the end of the list; step 0 has
none, and any other step beyond the list is an error. -/
def active? (step : Int) (prims : List α) : Except Error (Option α) :=
  let position := step - 1
  if step = 0 then .ok none
  else match itemAt? prims position with
    | some p => .ok (some p)
    | none =>
      if position < -positionBound ∨ positionBound ≤ position then .error .indexTooLarge
      else .error .noSuchItem

/-- The page of a number. -/
def page (prims : List α) (number : Nat) : Page α :=
  let (step, subStep) := place number
  { number, step, subStep
    recovered := recovered step subStep prims
    active := active step prims }

/-- All pages, in order. -/
def pages (prims : List α) : List (Page α) :=
  (List.range (count prims)).map fun k => page prims (k + 1)

/-- All pages, in order, each put together from its place and its primitive as far as there are
any. -/
def pages? (prims : List α) : Except Error (List (Page α)) :=
  (List.range' 1 (count prims)).mapM fun (number : Nat) => do
    let (step, subStep) ← place? number prims
    let active ← active? step prims
    return { number, step, subStep, recovered := recovered step subStep prims, active }

end Pagination

end FlowReport
