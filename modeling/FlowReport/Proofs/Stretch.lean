import Mathlib.Data.List.Basic

/-!
# Stretches of a list

Parts that lie in a list at known places, one behind the other. A `Tiling` is how a recursion
over the list sees them: what is skipped before a part, the part, and the tiling of the rest.
`Stretches` is how a reader sees them: each part is the slice of the list at its place, and each
part ends before the next one begins.
-/

namespace FlowReport

variable {α : Type}

/-- The parts lie in a list at their places, in the order of the list and apart from each other. -/
structure Stretches (whole : List α) (parts : List (Nat × List α)) : Prop where
  within : ∀ p ∈ parts, p.1 + p.2.length ≤ whole.length
  slice : ∀ p ∈ parts, (whole.drop p.1).take p.2.length = p.2
  ordered : parts.Pairwise fun p q => p.1 + p.2.length ≤ q.1

/-- Nonempty parts cut out of a list that stands behind `pos` other items. What lies before,
between and behind the parts is to be skipped. -/
inductive Tiling (skip : α → Prop) : (pos : Nat) → List (Nat × List α) → List α → Prop where
  | nil {pos rest} (skipped : ∀ a ∈ rest, skip a) : Tiling skip pos [] rest
  | cons {pos before part parts after} (skipped : ∀ a ∈ before, skip a) (nonempty : part ≠ [])
      (tail : Tiling skip (pos + before.length + part.length) parts after) :
      Tiling skip pos ((pos + before.length, part) :: parts) (before ++ part ++ after)

namespace Tiling

variable {skip : α → Prop} {pos : Nat} {parts : List (Nat × List α)} {whole : List α}

/-- A part at the very front. -/
theorem cons_front {part after : List α} (nonempty : part ≠ [])
    (tail : Tiling skip (pos + part.length) parts after) :
    Tiling skip pos ((pos, part) :: parts) (part ++ after) :=
  @Tiling.cons α skip pos [] part parts after (by simp) nonempty tail

/-- More to skip in front. -/
theorem skip_append {before : List α} (h : Tiling skip (pos + before.length) parts whole)
    (skipped : ∀ a ∈ before, skip a) : Tiling skip pos parts (before ++ whole) := by
  cases h with
  | nil tail => exact .nil fun a ha => (List.mem_append.1 ha).elim (skipped a) (tail a)
  | @cons _ more part parts after middle nonempty tail =>
    have place : pos + before.length + more.length = pos + (before ++ more).length := by
      rw [List.length_append]; omega
    rw [place] at tail ⊢
    rw [← List.append_assoc, ← List.append_assoc]
    exact .cons (fun a ha => (List.mem_append.1 ha).elim (skipped a) (middle a)) nonempty tail

theorem nonempty (h : Tiling skip pos parts whole) : ∀ p ∈ parts, p.2 ≠ [] := by
  induction h with
  | nil => simp
  | cons _ nonempty _ ih => exact List.forall_mem_cons.2 ⟨nonempty, ih⟩

theorem within (h : Tiling skip pos parts whole) :
    ∀ p ∈ parts, pos ≤ p.1 ∧ p.1 + p.2.length ≤ pos + whole.length := by
  induction h with
  | nil => simp
  | cons _ _ _ ih =>
    refine List.forall_mem_cons.2 ⟨?_, ?_⟩
    · simp only [List.length_append]; omega
    · intro p hp
      have := ih p hp
      simp only [List.length_append]; omega

theorem ordered (h : Tiling skip pos parts whole) :
    parts.Pairwise fun p q => p.1 + p.2.length ≤ q.1 := by
  induction h with
  | nil => exact .nil
  | cons _ _ tail ih => exact .cons (fun q hq => (tail.within q hq).1) ih

/-- Each part is the slice at its place, whatever stands around the list. -/
theorem slice (h : Tiling skip pos parts whole) {front : List α} (back : List α)
    (place : front.length = pos) :
    ∀ p ∈ parts, ((front ++ whole ++ back).drop p.1).take p.2.length = p.2 := by
  induction h generalizing front with
  | nil => simp
  | @cons pos before part parts after _ _ _ ih =>
    refine List.forall_mem_cons.2 ⟨?_, ?_⟩
    · rw [show front ++ (before ++ part ++ after) ++ back =
        (front ++ before) ++ (part ++ (after ++ back)) by simp,
        List.drop_left' (by simp [place]), List.take_left' rfl]
    · intro p hp
      have := @ih (front ++ before ++ part) (by simp [place, Nat.add_assoc]) p hp
      rwa [show front ++ (before ++ part ++ after) ++ back =
        front ++ before ++ part ++ after ++ back by simp]

/-- The parts of a tiling as slices of the whole list. -/
theorem stretches {front : List α} (h : Tiling skip front.length parts whole) (back : List α) :
    Stretches (front ++ whole ++ back) parts where
  within p hp := by
    have := (h.within p hp).2
    simp only [List.length_append]; omega
  slice := h.slice back rfl
  ordered := h.ordered

/-- An item of the list that lies in no part is one to skip. -/
theorem skip_of_outside (h : Tiling skip pos parts whole) {i : Nat} {a : α}
    (item : whole[i]? = some a)
    (outside : ∀ p ∈ parts, pos + i < p.1 ∨ p.1 + p.2.length ≤ pos + i) : skip a := by
  induction h generalizing i with
  | nil skipped => exact skipped a (List.mem_of_getElem? item)
  | @cons pos before part parts after skipped _ _ ih =>
    have first := outside _ List.mem_cons_self
    rcases Nat.lt_or_ge i before.length with hi | hi
    · rw [List.append_assoc, List.getElem?_append_left hi] at item
      exact skipped a (List.mem_of_getElem? item)
    · have hp : before.length + part.length ≤ i := by simp only at first; omega
      rw [List.getElem?_append_right (by simpa using hp)] at item
      apply ih item
      intro p hp'
      have := outside p (List.mem_cons_of_mem _ hp')
      simp only [List.length_append] at *
      omega

end Tiling

end FlowReport
