import FlowReport.Assembly.Module
import Mathlib.Data.List.Basic

/-!
# The lines of a body

What the cut of a body into items does with each line. A line by itself is a mark, a gap or
neither; `instructionLines` reads the lines from top to bottom with nothing but the open balance
in hand and keeps those that belong to instructions. The items hold the same lines, and a stretch
of the items of a body is what its own lines are cut into.
-/

namespace FlowReport.Assembly

/-- A line that opens a block wherever no instruction is open: a comment that names a slot, or a
label. -/
def IsMark (line : Text) : Prop := (slotMark? line).isSome ∨ (label? line).isSome

/-- A line that says nothing wherever no instruction is open: it is blank or a comment, and the
comment names no slot. -/
def IsGap (line : Text) : Prop :=
  (line.trim = [] ∨ line.trim.head? = some ';') ∧ slotMark? line = none

instance (line : Text) : Decidable (IsMark line) := inferInstanceAs (Decidable (_ ∨ _))

instance (line : Text) : Decidable (IsGap line) := inferInstanceAs (Decidable (_ ∧ _))

/-- The lines of a body that belong to instructions, from top to bottom. While the balance is
positive an instruction is open and takes the line, whatever it is; else the line starts one
unless it is a mark or a gap. -/
def instructionLines : (balance : Int) → List Text → List Text
  | _, [] => []
  | balance, line :: rest =>
    if 0 < balance then line :: instructionLines (balance + Item.weight line) rest
    else if IsMark line ∨ IsGap line then instructionLines 0 rest
    else line :: instructionLines (Item.weight line) rest

/-- Once an instruction is closed, how far its balance fell does not matter. -/
theorem instruction_lines_closed {balance : Int} (closed : balance ≤ 0) (ls : List Text) :
    instructionLines balance ls = instructionLines 0 ls := by
  cases ls with
  | nil => rfl
  | cons line rest => simp [instructionLines, show ¬ 0 < balance by omega]

/-- An open instruction takes its lines first. -/
theorem instruction_lines_open (balance : Int) (ls : List Text) :
    instructionLines balance ls = (takeOpen Item.weight balance ls).1 ++
      instructionLines 0 (takeOpen Item.weight balance ls).2 := by
  induction ls generalizing balance with
  | nil => rfl
  | cons line rest ih =>
    by_cases h : 0 < balance
    · simp only [instructionLines, takeOpen, h, if_true, List.cons_append]
      rw [ih]
    · rw [instruction_lines_closed (by omega)]
      simp [takeOpen, h]

/-- Lines that were taken while an instruction was open are taken again when other lines follow,
if something ended the taking. -/
theorem take_open_append {weight : Text → Int} {balance : Int} {more rest : List Text}
    (taken : takeOpen weight balance (more ++ rest) = (more, rest)) {other : List Text}
    (ended : rest = [] → other = []) :
    takeOpen weight balance (more ++ other) = (more, other) := by
  induction more generalizing balance with
  | nil =>
    cases other with
    | nil => rfl
    | cons line other =>
      cases rest with
      | nil => exact absurd (ended rfl) (List.cons_ne_nil _ _)
      | cons last rest =>
        have closed : ¬ 0 < balance := by
          intro h
          simp [takeOpen, h] at taken
        simp [takeOpen, closed]
  | cons line more ih =>
    by_cases h : 0 < balance
    · simp only [List.cons_append, takeOpen, h, if_true, Prod.mk.injEq, List.cons.injEq, true_and]
        at taken ⊢
      have := ih (Prod.ext taken.1 taken.2)
      simp [this]
    · simp [takeOpen, h] at taken

namespace Item

@[simp] theorem lines_mark (name line : Text) : (mark name line).lines = [line] := rfl

@[simp] theorem lines_gap (line : Text) : (gap line).lines = [line] := rfl

@[simp] theorem lines_inst (line : Text) (more : List Text) :
    (inst line more).lines = line :: more := rfl

@[simp] theorem instruction_mark (name line : Text) : (mark name line).instruction? = none := rfl

@[simp] theorem instruction_gap (line : Text) : (gap line).instruction? = none := rfl

/-- What a line is by itself. -/
theorem ofLine?_cases (line : Text) :
    (∃ name, ofLine? line = some (mark name line) ∧ IsMark line) ∨
    (ofLine? line = some (gap line) ∧ IsGap line) ∨
    (ofLine? line = none ∧ ¬ (IsMark line ∨ IsGap line)) := by
  unfold ofLine?
  cases hs : slotMark? line with
  | some digits => exact .inl ⟨digits, rfl, .inl (by simp [hs])⟩
  | none =>
    by_cases hb : line.trim = [] ∨ line.trim.head? = some ';'
    · exact .inr (.inl ⟨by simp only [hb, if_true], hb, hs⟩)
    · cases hl : label? line with
      | some ident => exact .inl ⟨ident.name, by simp only [hb, if_false, Option.map_some],
          .inr (by simp [hl])⟩
      | none =>
        refine .inr (.inr ⟨by simp only [hb, if_false, Option.map_none], ?_⟩)
        rintro ((h | h) | h)
        · simp [hs] at h
        · simp [hl] at h
        · exact hb h.1

/-- A line that is an item by itself. -/
theorem lines_of_ofLine? {line : Text} {item : Item} (h : ofLine? line = some item) :
    item.lines = [line] ∧ item.instruction? = none ∧ (IsMark line ∨ IsGap line) := by
  rcases ofLine?_cases line with ⟨name, h', hm⟩ | ⟨h', hg⟩ | ⟨h', -⟩ <;> rw [h'] at h <;> cases h
  · exact ⟨rfl, rfl, .inl hm⟩
  · exact ⟨rfl, rfl, .inr hg⟩

theorem not_mark_of_ofLine? {line : Text} (h : ofLine? line = none) :
    ¬ (IsMark line ∨ IsGap line) := by
  rcases ofLine?_cases line with ⟨name, h', -⟩ | ⟨h', -⟩ | ⟨-, hn⟩
  · rw [h'] at h; cases h
  · rw [h'] at h; cases h
  · exact hn

theorem ofLines_nil : ofLines [] = [] := by rw [ofLines]

theorem ofLines_some {line : Text} {item : Item} (h : ofLine? line = some item)
    (rest : List Text) : ofLines (line :: rest) = item :: ofLines rest := by
  rw [ofLines, h]

theorem ofLines_none {line : Text} (h : ofLine? line = none) (rest : List Text) :
    ofLines (line :: rest) = inst line (takeOpen weight (weight line) rest).1 ::
      ofLines (takeOpen weight (weight line) rest).2 := by
  rw [ofLines, h]

/-- Nothing is lost: the items hold the lines of the body. -/
theorem flatMap_lines_ofLines (ls : List Text) : (ofLines ls).flatMap lines = ls := by
  fun_induction ofLines ls with
  | case1 => rfl
  | case2 line rest item h ih => simp [lines_of_ofLine? h, ih]
  | case3 line rest h more ih => simp [ih, more, takeOpen_append]

/-- The pieces of the instructions of a body are its instruction lines, trimmed. -/
theorem pieces_ofLines (ls : List Text) :
    ((ofLines ls).filterMap instruction?).flatMap Instruction.pieces =
      (instructionLines 0 ls).map Text.trim := by
  fun_induction ofLines ls with
  | case1 => rfl
  | case2 line rest item h ih =>
    obtain ⟨-, none, alone⟩ := lines_of_ofLine? h
    rw [List.filterMap_cons_none none, ih]
    simp [instructionLines, alone]
  | case3 line rest h more ih =>
    have started := not_mark_of_ofLine? h
    rw [show instructionLines 0 (line :: rest) = line :: instructionLines (weight line) rest by
      simp only [instructionLines, Int.lt_irrefl, if_false, started], instruction_lines_open]
    simp [instruction?, ih, more]

/-- The items at the front of a body are what their own lines are cut into. -/
theorem ofLines_front {ls : List Text} {front back : List Item}
    (cut : ofLines ls = front ++ back) : ofLines (front.flatMap lines) = front := by
  induction front generalizing ls with
  | nil => exact ofLines_nil
  | cons item front ih =>
    cases ls with
    | nil => simp [ofLines_nil] at cut
    | cons line rest =>
      rw [List.flatMap_cons]
      cases h : ofLine? line with
      | some single =>
        rw [ofLines_some h, List.cons_append, List.cons.injEq] at cut
        obtain ⟨rfl, cut⟩ := cut
        rw [(lines_of_ofLine? h).1, List.singleton_append, ofLines_some h, ih cut]
      | none =>
        rw [ofLines_none h, List.cons_append, List.cons.injEq] at cut
        obtain ⟨rfl, cut⟩ := cut
        have all := takeOpen_append weight (weight line) rest
        cases taken : takeOpen weight (weight line) rest with | mk more behind =>
        rw [taken] at cut all
        have ended : behind = [] → front.flatMap lines = [] := by
          rintro rfl
          rw [ofLines_nil, List.nil_eq_append_iff] at cut
          rw [cut.1, List.flatMap_nil]
        have again := take_open_append (by rw [all, taken]) ended
        rw [lines_inst, List.cons_append, ofLines_none h, again, ih cut]

/-- The items behind some of a body are what their own lines are cut into. -/
theorem ofLines_back {ls : List Text} {front back : List Item}
    (cut : ofLines ls = front ++ back) : ofLines (back.flatMap lines) = back := by
  induction front generalizing ls with
  | nil =>
    obtain rfl : ofLines ls = back := cut
    rw [flatMap_lines_ofLines]
  | cons item front ih =>
    cases ls with
    | nil => simp [ofLines_nil] at cut
    | cons line rest =>
      cases h : ofLine? line with
      | some single =>
        rw [ofLines_some h, List.cons_append, List.cons.injEq] at cut
        exact ih cut.2
      | none =>
        rw [ofLines_none h, List.cons_append, List.cons.injEq] at cut
        exact ih cut.2

/-- A stretch of the items of a body is what its own lines are cut into. -/
theorem ofLines_stretch {ls : List Text} {front middle back : List Item}
    (cut : ofLines ls = front ++ middle ++ back) :
    ofLines (middle.flatMap lines) = middle := by
  rw [List.append_assoc] at cut
  exact ofLines_front (ofLines_back cut)

end Item

end FlowReport.Assembly
