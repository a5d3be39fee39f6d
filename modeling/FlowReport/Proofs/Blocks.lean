import FlowReport.Proofs.Items
import FlowReport.Proofs.Results
import FlowReport.Proofs.Stretch
import Mathlib.Data.List.DropRight

/-!
# The blocks of a body

The second pass over a body, as a relation. `Slots.Step` says what reading one item does to the
slots and whether it opens a block; `Slots.Run` is the reading of several. `Grouping` says what
the blocks are then: the items from one opening to the next, without the gaps at their end.
-/

namespace FlowReport

namespace Assembly

/-- The text of an instruction with these lines. -/
def textOf (ls : List Text) : Text := Text.join [' '] (ls.map Text.trim)

namespace Slots

/-- What reading one item does: a gap nothing, a mark opens the block that it names, and an
instruction opens a block under the next free slot where no block is open. -/
inductive Step (s : Slots) : Item → Option Text → Slots → Prop where
  | gap (line : Text) : Step s (.gap line) none s
  | mark {name : Text} {s' : Slots} (line : Text) (opened : s.opened name = .ok s') :
      Step s (.mark name line) (some name) s'
  | first {line : Text} {more : List Text} {name : Text} {mid s' : Slots}
      (closed : s.closed = true) (written : Numeral.write s.next = .ok name)
      (opened : s.opened name = .ok mid) (passed : mid.passed (textOf (line :: more)) = .ok s') :
      Step s (.inst line more) (some name) s'
  | next {line : Text} {more : List Text} {s' : Slots} (unclosed : s.closed = false)
      (passed : s.passed (textOf (line :: more)) = .ok s') : Step s (.inst line more) none s'

theorem step_iff {s s' : Slots} {item : Item} {name? : Option Text} :
    s.step item = .ok (name?, s') ↔ Step s item name? s' := by
  constructor
  · intro h
    cases item with
    | gap line =>
      simp only [step, Except.ok.injEq, Prod.mk.injEq] at h
      obtain ⟨rfl, rfl⟩ := h
      exact .gap line
    | mark name line =>
      obtain ⟨t, opened, h⟩ := bind_eq_ok.1 h
      cases h
      exact .mark line opened
    | inst line more =>
      simp only [step] at h
      split at h
      · rename_i closed
        obtain ⟨name, written, h⟩ := bind_eq_ok.1 h
        obtain ⟨mid, opened, h⟩ := bind_eq_ok.1 h
        obtain ⟨t, passed, h⟩ := bind_eq_ok.1 h
        cases h
        exact .first closed written opened passed
      · rename_i unclosed
        obtain ⟨t, passed, h⟩ := bind_eq_ok.1 h
        cases h
        exact .next (by simpa using unclosed) passed
  · rintro (line | ⟨line, opened⟩ | ⟨closed, written, opened, passed⟩ | ⟨unclosed, passed⟩)
    · rfl
    · exact bind_eq_ok.2 ⟨_, opened, rfl⟩
    · simp only [step, closed, if_true]
      exact bind_eq_ok.2 ⟨_, written, bind_eq_ok.2 ⟨_, opened, bind_eq_ok.2 ⟨_, passed, rfl⟩⟩⟩
    · simp only [step, unclosed, Bool.false_eq_true, if_false]
      exact bind_eq_ok.2 ⟨_, passed, rfl⟩

/-- Reading several items, each with the name of the block that it opens. -/
inductive Run : Slots → List (Item × Option Text) → Slots → Prop where
  | nil (s : Slots) : Run s [] s
  | cons {s mid s' : Slots} {item : Item} {name? : Option Text} {rest : List (Item × Option Text)}
      (head : Step s item name? mid) (tail : Run mid rest s') : Run s ((item, name?) :: rest) s'

theorem openings_iff {s : Slots} {items : List Item} {pairs : List (Item × Option Text)} :
    s.openings items = .ok pairs ↔ pairs.map (·.1) = items ∧ ∃ s', Run s pairs s' := by
  induction items generalizing s pairs with
  | nil =>
    constructor
    · intro h
      cases h
      exact ⟨rfl, s, .nil s⟩
    · rintro ⟨h, -⟩
      rw [List.map_eq_nil_iff.1 h]
      rfl
  | cons item items ih =>
    constructor
    · intro h
      obtain ⟨⟨name?, mid⟩, head, h⟩ := bind_eq_ok.1 h
      obtain ⟨rest, tail, h⟩ := bind_eq_ok.1 h
      cases h
      obtain ⟨same, s', run⟩ := ih.1 tail
      exact ⟨by rw [List.map_cons, same], s', .cons (step_iff.1 head) run⟩
    · rintro ⟨same, s', run⟩
      cases run with
      | nil => cases same
      | cons head tail =>
        rw [List.map_cons, List.cons.injEq] at same
        obtain ⟨rfl, same⟩ := same
        exact bind_eq_ok.2 ⟨_, step_iff.2 head, bind_eq_ok.2 ⟨_, ih.2 ⟨same, s', tail⟩, rfl⟩⟩

/-- What opens a block is no gap. -/
theorem Step.not_gap {s s' : Slots} {item : Item} {name : Text} (h : Step s item (some name) s') :
    item.isGap = false := by
  cases h <;> rfl

/-- Where no block is open, all but a gap opens one. -/
theorem Step.gap_of_closed {s s' : Slots} {item : Item} (h : Step s item none s')
    (closed : s.closed = true) : item.isGap = true ∧ s' = s := by
  cases h with
  | gap => exact ⟨rfl, rfl⟩
  | next unclosed => rw [closed] at unclosed; cases unclosed

end Slots

namespace Block

/-- Items cut into blocks: each block has the items from one that opens it to the next such one.
The function has `pos` lines before the items. -/
inductive Grouping : (pos : Nat) → List Item → List Block → Prop where
  | nil (pos : Nat) : Grouping pos [] []
  | cons {pos : Nat} {opener : Item} {more rest : List Item} {blocks : List Block} (name : Text)
      (opens : opener.isGap = false)
      (tail : Grouping (pos + ((opener :: more).flatMap Item.lines).length) rest blocks) :
      Grouping pos (opener :: more ++ rest) (ofItems name pos (opener :: more) :: blocks)

theorem group_spec {s s' : Slots} {pairs : List (Item × Option Text)} (run : s.Run pairs s')
    (pos : Nat) :
    ∃ rest, pairs.map (·.1) = (group pos pairs).1 ++ rest ∧
      Grouping (pos + ((group pos pairs).1.flatMap Item.lines).length) rest (group pos pairs).2 ∧
      (s.closed = true → ∀ item ∈ (group pos pairs).1, item.isGap = true) := by
  induction run generalizing pos with
  | nil s => exact ⟨[], rfl, .nil _, fun _ item h => by cases h⟩
  | @cons s mid s' item name? pairs head tail ih =>
    obtain ⟨rest, same, grouping, gaps⟩ := ih (pos + item.lines.length)
    cases name? with
    | none =>
      refine ⟨rest, by simp [group, same], ?_, fun closed => ?_⟩
      · simpa [group, Nat.add_assoc] using grouping
      · obtain ⟨isGap, rfl⟩ := head.gap_of_closed closed
        simpa [group, isGap] using gaps closed
    | some name =>
      refine ⟨item :: (group (pos + item.lines.length) pairs).1 ++ rest, by simp [group, same],
        ?_, fun _ item h => by simp [group] at h⟩
      have tail : Grouping (pos + ((item :: (group (pos + item.lines.length) pairs).1).flatMap
          Item.lines).length) rest (group (pos + item.lines.length) pairs).2 := by
        simpa [Nat.add_assoc] using grouping
      simpa [group] using Grouping.cons name head.not_gap tail

/-- The blocks of a body are its items, grouped, behind gaps that no block takes. -/
theorem ofBody_grouping {slot first : Nat} {body : List Text} {blocks : List Block}
    (h : ofBody slot first body = .ok blocks) :
    ∃ head rest, Item.ofLines body = head ++ rest ∧ (∀ item ∈ head, item.isGap = true) ∧
      Grouping (first + (head.flatMap Item.lines).length) rest blocks := by
  obtain ⟨pairs, opened, h⟩ := bind_eq_ok.1 h
  cases h
  obtain ⟨same, s', run⟩ := Slots.openings_iff.1 opened
  obtain ⟨rest, split, grouping, gaps⟩ := group_spec run first
  exact ⟨_, rest, same.symm.trans split, gaps rfl, grouping⟩

end Block

end Assembly

end FlowReport
