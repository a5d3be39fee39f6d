import FlowReport.Text.Basic

/-!
# Tables

A table maps keys, most often texts, to values and keeps the order in which its keys came.
Setting a key that is there replaces its value and keeps its place.
-/

namespace FlowReport

/-- Entries in the order of their first setting. -/
abbrev Table (α : Type) (κ : Type := Text) := List (κ × α)

namespace Table

variable {α κ : Type} [DecidableEq κ]

/-- The value under a key. -/
def get? : Table α κ → (key : κ) → Option α
  | [], _ => none
  | (k, v) :: t, key => if k = key then some v else get? t key

/-- The table with `value` under `key`. -/
def set : Table α κ → (key : κ) → (value : α) → Table α κ
  | [], key, value => [(key, value)]
  | (k, v) :: t, key, value => if k = key then (k, value) :: t else (k, v) :: set t key value

/-- The table of a list of entries; of two with one key the later gives the value. -/
def ofList (entries : List (κ × α)) : Table α κ :=
  entries.foldl (fun t e => set t e.1 e.2) []

theorem get?_set (t : Table α κ) (key k : κ) (value : α) :
    get? (set t key value) k = if k = key then some value else get? t k := by
  fun_induction set t key value <;> grind [get?]

end Table

end FlowReport
