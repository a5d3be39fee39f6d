import FlowReport.Proofs.Chunks
import FlowReport.Proofs.Layout

/-!
# Reading back what was printed

A body that was printed is cut into the items that were printed, the slots run through it as the
printer counted them, and the blocks that are read are those that were printed. The invariant is
that the next free slot of the reader is that of the printer between any two items, and that no
block is open between two printed blocks.
-/

namespace FlowReport.Assembly

open Item in
/-- A gap line is a gap. -/
theorem Item.ofLine?_gap {line : Text} (h : IsGap line) : ofLine? line = some (gap line) := by
  rw [ofLine?, h.2]
  simp only [h.1, if_true]

/-- A line that does not begin a comment names no slot. -/
theorem slotMark?_eq_none {line : Text} (h : line.trim.head? ≠ some ';') :
    slotMark? line = none := by
  rw [Text.head?_trim] at h
  unfold slotMark?
  cases front : Text.dropBlank line with
  | nil => rfl
  | cons c rest =>
    rw [front, List.head?_cons] at h
    simp [Text.dropPrefix?, show ¬ ';' = c from fun h' => h (h' ▸ rfl)]

namespace Layout

/-- A line with an identifier and a colon is a mark. -/
theorem ofLine?_ident {indent s after : Text} {ident : Ident} {c : Char}
    (blank : ∀ c ∈ indent, isBlank c = true) (begins : s.head? = some c)
    (visible : isBlank c = false ∧ c ≠ ';')
    (read : Ident.read? (s ++ ':' :: after) = some (ident, ':' :: after))
    (ends : Label.Ends after) : Item.ofLine? (indent ++ (s ++ ':' :: after)) =
      some (.mark ident.name (indent ++ (s ++ ':' :: after))) := by
  have front : Text.dropBlank (indent ++ (s ++ ':' :: after)) = s ++ ':' :: after := by
    obtain ⟨s, rfl⟩ := List.head?_eq_some_iff.1 begins
    rw [Text.dropBlank_append blank, List.cons_append, Text.dropBlank_cons visible.1]
  have head : (indent ++ (s ++ ':' :: after)).trim.head? = some c := by
    obtain ⟨s, rfl⟩ := List.head?_eq_some_iff.1 begins
    rw [Text.head?_trim, front]
    rfl
  have comment : (indent ++ (s ++ ':' :: after)).trim.head? ≠ some ';' := by
    rw [head]
    exact fun same => visible.2 (Option.some.inj same)
  have said : (indent ++ (s ++ ':' :: after)).trim ≠ [] := fun h => by
    rw [h] at head
    cases head
  have label : label? (indent ++ (s ++ ':' :: after)) = some ident := by
    unfold label?
    rw [front, read]
    simp only [Option.bind_eq_bind, Option.bind_some, Text.dropPrefix?, if_true]
    rcases ends with ends | ends
    · rw [ends]
    · cases rest : Text.dropBlank after with
      | nil => rfl
      | cons c rest' =>
        rw [rest, List.head?_cons, Option.some.injEq] at ends
        simp [ends]
  rw [Item.ofLine?, slotMark?_eq_none comment]
  simp only [said, comment, or_self, if_false, label, Option.map_some]

/-- So is one with a bare identifier. -/
theorem ofLine?_bare {indent w after : Text} (blank : ∀ c ∈ indent, isBlank c = true)
    (nonempty : w ≠ []) (bare : ∀ c ∈ w, isBare c = true) (ends : Label.Ends after) :
    Item.ofLine? (indent ++ (w ++ ':' :: after)) =
      some (.mark w (indent ++ (w ++ ':' :: after))) := by
  have read := Ident.read?_bare nonempty bare (c := ':') (by decide) after
  obtain ⟨c, w, rfl⟩ := List.exists_cons_of_ne_nil nonempty
  have own := bare c List.mem_cons_self
  have visible : isBlank c = false ∧ c ≠ ';' := by
    refine ⟨not_blank_of_isBare own, ?_⟩
    rintro rfl
    exact absurd own (by decide)
  exact ofLine?_ident blank rfl visible read ends

theorem Label.name_ne_nil {n : Nat} {l : Label} (fits : l.Fits) : l.name n ≠ [] := by
  cases l with
  | named indent name after =>
    obtain ⟨-, -, ⟨c, hc, -⟩, -⟩ := fits
    exact List.ne_nil_of_mem hc
  | numbered => exact Numeral.ofNat_ne_nil n
  | commented => exact Numeral.ofNat_ne_nil n

theorem isBare_of_mem_ofNat {n : Nat} {c : Char} (h : c ∈ Numeral.ofNat n) : isBare c = true :=
  isBare_of_isDigit (Numeral.isDigit_of_mem_ofNat h)

/-- A comment that names a slot. -/
theorem slotMark?_commented {indent : Text} (blank : ∀ c ∈ indent, isBlank c = true) (n : Nat)
    (after : Text) :
    slotMark? (indent ++ ("; <label>:".toList ++ (Numeral.ofNat n ++ ':' :: after))) =
      some (Numeral.ofNat n) := by
  have front : Text.dropBlank ("; <label>:".toList ++ (Numeral.ofNat n ++ ':' :: after)) =
      [';'] ++ (' ' :: ("<label>:".toList ++ (Numeral.ofNat n ++ ':' :: after))) := rfl
  have behind : Text.dropBlank (' ' :: ("<label>:".toList ++ (Numeral.ofNat n ++ ':' :: after))) =
      "<label>:".toList ++ (Numeral.ofNat n ++ ':' :: after) := rfl
  have digits : (Numeral.ofNat n ++ ':' :: after).takeWhile isDecimal = Numeral.ofNat n :=
    Text.takeWhile_append_cons
      (fun c h => isDecimal_of_isDigit (Numeral.isDigit_of_mem_ofNat h)) (by decide) after
  obtain ⟨d, ds, number⟩ := List.exists_cons_of_ne_nil (Numeral.ofNat_ne_nil n)
  unfold slotMark?
  rw [Text.dropBlank_append blank, front, Text.dropPrefix?_append]
  simp only [Option.bind_eq_bind, Option.bind_some]
  rw [behind, Text.dropPrefix?_append]
  simp only [Option.bind_some]
  rw [digits, number]

/-- The line of a label is the mark of its block. -/
theorem ofLine?_label {n : Nat} {l : Label} (fits : l.Fits) :
    Item.ofLine? (l.line n) = some (.mark (l.name n) (l.line n)) := by
  cases l with
  | named indent name after =>
    obtain ⟨blank, bare, -, ends⟩ := id fits
    exact ofLine?_bare blank (Label.name_ne_nil (n := n) fits) bare ends
  | numbered indent after =>
    exact ofLine?_bare fits.1 (Numeral.ofNat_ne_nil n) (fun _ => isBare_of_mem_ofNat) fits.2
  | commented indent after =>
    rw [Item.ofLine?, Label.line, slotMark?_commented fits]
    rfl

/-- A numbered instruction begins with its result. -/
theorem first_numbered {indent : Text} (blank : ∀ c ∈ indent, isBlank c = true) (n : Nat)
    (operation : Text) (more : List Text) :
    Text.dropBlank ((Inst.numbered indent operation more).first n) =
      '%' :: (Numeral.ofNat n ++ ' ' :: '=' :: ' ' :: operation) := by
  rw [Inst.first, Text.dropBlank_append blank]
  rfl

/-- The first line of an instruction starts one. -/
theorem ofLine?_first {n : Nat} {i : Inst} (fits : i.Fits n) :
    Item.ofLine? (i.first n) = none := by
  have starts : (i.first n).trim ≠ [] ∧ (i.first n).trim.head? ≠ some ';' ∧
      label? (i.first n) = none := by
    cases i with
    | plain first more => exact ⟨fits.starts.1, fits.starts.2.1, fits.starts.2.2.1⟩
    | numbered indent operation more =>
      have front := first_numbered fits.starts n operation more
      refine ⟨?_, ?_, ?_⟩
      · rw [ne_eq, Text.trim_eq_nil_iff, front]
        exact List.cons_ne_nil _ _
      · rw [Text.head?_trim, front]
        simp
      · unfold label?
        rw [front]
        rfl
  rw [Item.ofLine?, slotMark?_eq_none starts.2.1]
  simp only [starts, or_self, if_false, Option.map_none]

/-- An instruction takes its further lines and no more. -/
theorem takeOpen_closes {balance : Int} {line : Text} {more : List Text}
    (closes : Closes balance (line :: more)) (rest : List Text) :
    takeOpen Item.weight (balance + Item.weight line) (more ++ rest) = (more, rest) := by
  induction more generalizing balance line with
  | nil =>
    have : ¬ 0 < balance + Item.weight line := Int.not_lt.2 closes
    cases rest with
    | nil => rfl
    | cons next rest => rw [List.nil_append, takeOpen, if_neg this]
  | cons next more ih =>
    obtain ⟨still, closes⟩ := closes
    rw [List.cons_append, takeOpen, if_pos still, ih closes]

/-- The items of gaps and instructions. -/
def instItems : (n : Nat) → List (List Text × Inst) → List Item
  | _, [] => []
  | n, (gaps, i) :: rest =>
    gaps.map Item.gap ++ .inst (i.first n) i.more :: instItems (i.next n) rest

theorem ofLines_gaps {gaps : List Text} (gap : ∀ line ∈ gaps, IsGap line) (rest : List Text) :
    Item.ofLines (gaps ++ rest) = gaps.map Item.gap ++ Item.ofLines rest := by
  induction gaps with
  | nil => rfl
  | cons line gaps ih =>
    obtain ⟨hl, gap⟩ := List.forall_mem_cons.1 gap
    rw [List.cons_append, Item.ofLines_some (Item.ofLine?_gap hl), ih gap]
    rfl

theorem ofLines_inst {n : Nat} {i : Inst} (fits : i.Fits n) (rest : List Text) :
    Item.ofLines (i.lines n ++ rest) = .inst (i.first n) i.more :: Item.ofLines rest := by
  have taken := takeOpen_closes fits.closes rest
  rw [Int.zero_add] at taken
  rw [Inst.lines, List.cons_append, Item.ofLines_none (ofLine?_first fits), taken]

/-- Printed instructions are cut into themselves and the gaps. -/
theorem ofLines_instLines {n : Nat} {insts : List (List Text × Inst)} (ending : Ending n insts)
    (rest : List Text) :
    Item.ofLines (instLines n insts ++ rest) = instItems n insts ++ Item.ofLines rest := by
  induction ending with
  | last gap fits _ =>
    simp only [instLines, instItems, List.append_nil, List.append_assoc]
    rw [ofLines_gaps gap, ofLines_inst fits]
    rfl
  | cons gap fits _ _ ih =>
    simp only [instLines, instItems, List.append_assoc]
    rw [ofLines_gaps gap, ofLines_inst fits, ih]
    rfl

/-- A numeral is taken for a slot. -/
theorem opened_number {n : Nat} {closed : Bool} (small : n < 10 ^ Numeral.digitLimit) :
    Slots.opened ⟨n, closed⟩ (Numeral.ofNat n) = .ok ⟨n + 1, false⟩ := by
  have digits : (Numeral.ofNat n).all isDigitLike = true := List.all_eq_true.2 fun c h => by
    rw [isDigitLike, isDecimal_of_isDigit (Numeral.isDigit_of_mem_ofNat h), Bool.true_or]
  rw [Slots.opened, if_pos ⟨Numeral.ofNat_ne_nil n, digits⟩, Numeral.read_ofNat small]
  show Except.ok (⟨max n (n + 1), false⟩ : Slots) = _
  rw [Nat.max_eq_right (Nat.le_succ n)]

/-- The slots behind a label are as the printer counts them. -/
theorem opened_label {n : Nat} {closed : Bool} {l : Label} (fits : l.Fits)
    (small : l.next n ≤ 10 ^ Numeral.digitLimit) :
    Slots.opened ⟨n, closed⟩ (l.name n) = .ok ⟨l.next n, false⟩ := by
  cases l with
  | named indent name after =>
    obtain ⟨-, bare, ⟨c, hc, digit⟩, -⟩ := fits
    have name : ¬ (name ≠ [] ∧ name.all isDigitLike = true) := fun ⟨_, all⟩ =>
      digit (isDigit_of_isBare (bare c hc) (List.all_eq_true.1 all c hc))
    rw [Slots.opened, Label.name, if_neg name]
    rfl
  | numbered => exact opened_number small
  | commented => exact opened_number small

/-- The text of an instruction begins as its first line does. -/
theorem text_read (n : Nat) (i : Inst) :
    ∃ rest, (i.read n).text = (i.first n).trim ++ rest := by
  unfold Inst.read Instruction.text Inst.lines
  cases i.more with
  | nil => exact ⟨[], (List.append_nil _).symm⟩
  | cons line more => exact ⟨_, by rw [List.map_cons, List.map_cons, Text.join, List.append_assoc]⟩

/-- The result of an instruction is found if and only if it is numbered. -/
theorem resultSlot?_read {n : Nat} {i : Inst} (fits : i.Fits n) :
    resultSlot? (i.read n).text = match i with
      | .plain .. => none
      | .numbered .. => some (Numeral.ofNat n) := by
  cases i with
  | plain first more => exact fits.starts.2.2.2
  | numbered indent operation more =>
    obtain ⟨rest, text⟩ := text_read n (.numbered indent operation more)
    have front : ((Inst.numbered indent operation more).first n).trim =
        '%' :: (Numeral.ofNat n ++ ' ' :: '=' :: Text.dropBlankEnd (' ' :: operation)) := by
      have kept := Text.dropBlankEnd_append_cons (c := '=') (by decide)
        ('%' :: (Numeral.ofNat n ++ [' '])) (' ' :: operation)
      rw [Text.trim, first_numbered fits.starts]
      simpa using kept
    generalize Text.dropBlankEnd (' ' :: operation) = tail at front
    have same : (Inst.read n (.numbered indent operation more)).text =
        ['%'] ++ (Numeral.ofNat n ++ ' ' :: '=' :: (tail ++ rest)) := by
      rw [text, front]
      simp
    have decimal : ∀ c ∈ Numeral.ofNat n, isDecimal c = true :=
      fun c h => isDecimal_of_isDigit (Numeral.isDigit_of_mem_ofNat h)
    have sign : Text.dropBlank (' ' :: '=' :: (tail ++ rest)) = '=' :: (tail ++ rest) := rfl
    obtain ⟨d, ds, number⟩ := List.exists_cons_of_ne_nil (Numeral.ofNat_ne_nil n)
    unfold resultSlot?
    rw [same, Text.dropPrefix?_append]
    simp only [Option.bind_eq_bind, Option.bind_some]
    rw [Text.takeWhile_append_cons decimal (by decide), Text.dropWhile_append_cons decimal (by decide),
      sign, number]
    rfl

/-- The slots behind an instruction are as the printer counts them. -/
theorem passed_read {n : Nat} {closed : Bool} {i : Inst} (fits : i.Fits n)
    (small : i.next n ≤ 10 ^ Numeral.digitLimit) :
    Slots.passed ⟨n, closed⟩ (i.read n).text = .ok ⟨i.next n, isTerminator (i.read n).text⟩ := by
  have slot := resultSlot?_read fits
  cases i with
  | plain first more =>
    simp only at slot
    simp only [Slots.passed, slot]
    rfl
  | numbered indent operation more =>
    simp only at slot
    simp only [Slots.passed, slot, Numeral.read_ofNat small]
    show Except.ok (⟨max n (n + 1), _⟩ : Slots) = _
    rw [Nat.max_eq_right (Nat.le_succ n)]
    rfl

theorem le_next (n : Nat) (i : Inst) : n ≤ i.next n := by
  cases i with
  | plain => exact Nat.le_refl n
  | numbered => exact Nat.le_succ n

theorem le_behind (n : Nat) (insts : List (List Text × Inst)) : n ≤ behind n insts := by
  induction insts generalizing n with
  | nil => exact Nat.le_refl n
  | cons p rest ih => exact (le_next n p.2).trans (ih _)

/-- Gaps change no slots. -/
theorem run_gaps (s : Slots) (gaps : List Text) :
    Slots.Run s ((gaps.map Item.gap).map fun item => (item, none)) s := by
  induction gaps with
  | nil => exact .nil s
  | cons line gaps ih => exact .cons (.gap line) ih

theorem run_append {s mid s' : Slots} {front back : List (Item × Option Text)}
    (head : Slots.Run s front mid) (tail : Slots.Run mid back s') : Slots.Run s (front ++ back) s' := by
  induction head with
  | nil => exact tail
  | cons step _ ih => exact .cons step (ih tail)

/-- An instruction of an open block leaves the block open unless it ends it. -/
theorem run_inst {n : Nat} {i : Inst} (fits : i.Fits n)
    (small : i.next n ≤ 10 ^ Numeral.digitLimit) (gaps : List Text) :
    Slots.Run ⟨n, false⟩
      ((gaps.map Item.gap ++ [Item.inst (i.first n) i.more]).map fun item => (item, none))
      ⟨i.next n, isTerminator (i.read n).text⟩ := by
  rw [List.map_append]
  exact run_append (run_gaps _ gaps) (.cons (.next rfl (passed_read fits small)) (.nil _))

/-- The instructions of an open block open no other, and close this one. -/
theorem run_instItems {n : Nat} {insts : List (List Text × Inst)} (ending : Ending n insts)
    (small : behind n insts ≤ 10 ^ Numeral.digitLimit) :
    Slots.Run ⟨n, false⟩ ((instItems n insts).map fun item => (item, none))
      ⟨behind n insts, true⟩ := by
  induction ending with
  | @last n gaps i gap fits ends =>
    rw [← ends]
    exact run_inst fits small gaps
  | @cons n gaps i rest gap fits goes _ ih =>
    have inst := run_inst fits ((le_behind (i.next n) rest).trans small) gaps
    rw [goes] at inst
    have whole := run_append inst (ih small)
    rw [← List.map_append, List.append_assoc] at whole
    exact whole

/-- The items of a block that is printed. -/
def Block.items (n : Nat) (b : Block) : List Item :=
  (b.label?.map fun l => Item.mark (l.name n) (l.line n)).toList ++ instItems (b.opened n) b.insts

/-- The first item opens a block of that name, and the others open none. -/
def openWith (name : Text) : List Item → List (Item × Option Text)
  | [] => []
  | item :: rest => (item, some name) :: rest.map fun item => (item, none)

theorem map_fst_openWith (name : Text) (items : List Item) :
    (openWith name items).map (·.1) = items := by
  cases items with
  | nil => rfl
  | cons item rest => simp [openWith, Function.comp_def]

/-- A printed block is opened by its first item, with the slots as the printer counts them. -/
theorem run_block {n : Nat} {b : Block} (label : ∀ l ∈ b.label?, l.Fits)
    (tight : b.label? = none → ∀ p ∈ b.insts.head?, p.1 = []) (ending : Ending (b.opened n) b.insts)
    (small : b.next n ≤ 10 ^ Numeral.digitLimit) :
    Slots.Run ⟨n, true⟩ (openWith (b.name n) (b.items n)) ⟨b.next n, true⟩ := by
  obtain ⟨before, label?, insts⟩ := b
  cases label? with
  | some l =>
    have fits := label l rfl
    have opened := @opened_label n true l fits ((le_behind (l.next n) insts).trans small)
    exact .cons (.mark _ opened) (run_instItems ending small)
  | none =>
    change Ending (n + 1) insts at ending
    change behind (n + 1) insts ≤ _ at small
    have slot : n < 10 ^ Numeral.digitLimit := (le_behind (n + 1) insts).trans small
    have opened := @opened_number n true slot
    cases ending with
    | @last _ gaps i gap fits ends =>
      obtain rfl : gaps = [] := tight rfl _ rfl
      have passed := @passed_read (n + 1) false i fits small
      rw [ends] at passed
      exact .cons (.first rfl (Numeral.write_eq slot) opened passed) (.nil _)
    | @cons _ gaps i rest gap fits goes tail =>
      obtain rfl : gaps = [] := tight rfl _ rfl
      have passed := @passed_read (n + 1) false i fits ((le_behind _ rest).trans small)
      rw [goes] at passed
      exact .cons (.first rfl (Numeral.write_eq slot) opened passed) (run_instItems tail small)

@[simp] theorem flatMap_lines_gaps (gaps : List Text) :
    (gaps.map Item.gap).flatMap Item.lines = gaps := by
  induction gaps with
  | nil => rfl
  | cons line gaps ih => rw [List.map_cons, List.flatMap_cons, ih]; rfl

@[simp] theorem filterMap_instruction_gaps (gaps : List Text) :
    (gaps.map Item.gap).filterMap Item.instruction? = [] := by
  induction gaps with
  | nil => rfl
  | cons line gaps ih => rw [List.map_cons, List.filterMap_cons_none rfl, ih]

theorem lines_instItems (n : Nat) (insts : List (List Text × Inst)) :
    (instItems n insts).flatMap Item.lines = instLines n insts := by
  induction insts generalizing n with
  | nil => rfl
  | cons p rest ih =>
    simp only [instItems, instLines, List.flatMap_append, List.flatMap_cons, flatMap_lines_gaps, ih,
      Item.lines_inst, Inst.lines, List.append_assoc]

theorem instructions_instItems (n : Nat) (insts : List (List Text × Inst)) :
    (instItems n insts).filterMap Item.instruction? = instructions n insts := by
  induction insts generalizing n with
  | nil => rfl
  | cons p rest ih =>
    have inst : (Item.inst (p.2.first n) p.2.more).instruction? = some (p.2.read n) := rfl
    rw [instItems, List.filterMap_append, filterMap_instruction_gaps, List.nil_append,
      List.filterMap_cons_some inst, ih]
    rfl

/-- The last item of a printed block is an instruction. -/
theorem instItems_last {n : Nat} {insts : List (List Text × Inst)} (ending : Ending n insts) :
    ∃ front item, instItems n insts = front ++ [item] ∧ item.isGap = false := by
  induction ending with
  | last => exact ⟨_, _, rfl, rfl⟩
  | cons _ _ _ _ ih =>
    obtain ⟨front, item, same, inst⟩ := ih
    exact ⟨_ ++ _ :: front, item, by rw [instItems, same, List.append_assoc]; rfl, inst⟩

namespace Block

theorem lines_items (n : Nat) (b : Block) : (b.items n).flatMap Item.lines = b.lines n := by
  rw [items, lines, List.flatMap_append, lines_instItems]
  cases b.label? <;> rfl

theorem instructions_items (n : Nat) (b : Block) :
    (b.items n).filterMap Item.instruction? = instructions (b.opened n) b.insts := by
  rw [items, List.filterMap_append, instructions_instItems]
  cases b.label? <;> rfl

theorem items_last {n : Nat} {b : Block} (ending : Ending (b.opened n) b.insts) :
    ∃ front item, b.items n = front ++ [item] ∧ item.isGap = false := by
  obtain ⟨front, item, same, inst⟩ := instItems_last ending
  exact ⟨_ ++ front, item, by rw [items, same, List.append_assoc], inst⟩

/-- The lines of a printed block are cut into its items. -/
theorem ofLines_lines {n : Nat} {b : Block} (label : ∀ l ∈ b.label?, l.Fits)
    (ending : Ending (b.opened n) b.insts) (rest : List Text) :
    Item.ofLines (b.lines n ++ rest) = b.items n ++ Item.ofLines rest := by
  rw [lines, items, List.append_assoc, List.append_assoc, ← ofLines_instLines ending]
  cases h : b.label? with
  | none => rfl
  | some l => exact Item.ofLines_some (ofLine?_label (label l h)) _

end Block

/-- Items that open nothing belong to what is open before them. -/
theorem group_unopened (items : List Item) (pairs : List (Item × Option Text)) (pos : Nat) :
    Assembly.Block.group pos (items.map (fun item => (item, none)) ++ pairs) =
      (items ++ (Assembly.Block.group (pos + (items.flatMap Item.lines).length) pairs).1,
        (Assembly.Block.group (pos + (items.flatMap Item.lines).length) pairs).2) := by
  induction items generalizing pos with
  | nil => rfl
  | cons item items ih =>
    simp only [List.map_cons, List.cons_append, Assembly.Block.group, ih, List.flatMap_cons,
      List.length_append, Nat.add_assoc]

/-- A block has the items from its opening on up to the next one. -/
theorem group_openWith {items : List Item} (nonempty : items ≠ []) (name : Text)
    (pairs : List (Item × Option Text)) (pos : Nat) :
    Assembly.Block.group pos (openWith name items ++ pairs) =
      ([], Assembly.Block.ofItems name pos (items ++
          (Assembly.Block.group (pos + (items.flatMap Item.lines).length) pairs).1) ::
        (Assembly.Block.group (pos + (items.flatMap Item.lines).length) pairs).2) := by
  obtain ⟨item, rest, rfl⟩ := List.exists_cons_of_ne_nil nonempty
  simp only [openWith, List.cons_append, Assembly.Block.group, group_unopened, List.flatMap_cons,
    List.length_append, Nat.add_assoc]

/-- Gaps at the end of a block are no part of it. -/
theorem ofItems_append_gaps {front gaps : List Item} {item : Item} (inst : item.isGap = false)
    (gap : ∀ g ∈ gaps, g.isGap = true) (name : Text) (pos : Nat) :
    Assembly.Block.ofItems name pos (front ++ [item] ++ gaps) =
      { name, first := pos, lines := (front ++ [item]).flatMap Item.lines,
        insts := (front ++ [item]).filterMap Item.instruction? } := by
  have kept : Assembly.Block.withoutGaps (front ++ [item] ++ gaps) = front ++ [item] := by
    have all : gaps.rdropWhile Item.isGap = [] := List.rdropWhile_eq_nil_iff.2 gap
    have stop := Text.rdropWhile_append_cons inst front gaps
    rw [all] at stop
    rw [List.append_assoc]
    exact stop
  have none : gaps.filterMap Item.instruction? = [] :=
    List.filterMap_eq_nil_iff.2 fun g hg => by
      cases g with
      | gap => rfl
      | mark => cases gap _ hg
      | inst => cases gap _ hg
  rw [Assembly.Block.ofItems, kept, List.filterMap_append, none, List.append_nil]

theorem le_final (n : Nat) (bs : List Block) : n ≤ final n bs := by
  induction bs generalizing n with
  | nil => exact Nat.le_refl n
  | cons b rest ih =>
    have opened : n ≤ b.opened n := by
      obtain ⟨before, label?, insts⟩ := b
      cases label? with
      | none => exact Nat.le_succ n
      | some l =>
        cases l with
        | named => exact Nat.le_refl n
        | numbered => exact Nat.le_succ n
        | commented => exact Nat.le_succ n
    exact (opened.trans (le_behind _ _)).trans (ih _)

/-- A printed body is cut into the items that were printed, the slots run through it as the printer
counts them, and the items make the blocks that were printed. -/
theorem reading {n : Nat} {bs : List Block} (fits : Fits n bs) {after : List Text}
    (gap : ∀ line ∈ after, IsGap line) (small : final n bs ≤ 10 ^ Numeral.digitLimit) (pos : Nat) :
    ∃ pairs s, pairs.map (·.1) = Item.ofLines (body n bs ++ after) ∧ Slots.Run ⟨n, true⟩ pairs s ∧
      (∀ item ∈ (Assembly.Block.group pos pairs).1, item.isGap = true) ∧
      (Assembly.Block.group pos pairs).2 = blocks n pos bs := by
  induction fits generalizing pos with
  | nil n =>
    have items := ofLines_gaps gap []
    have group := group_unopened (after.map Item.gap) [] pos
    rw [List.append_nil] at items group
    refine ⟨_, _, ?_, run_gaps _ after, ?_, ?_⟩
    · rw [body, List.nil_append, items, Item.ofLines_nil]
      simp [Function.comp_def]
    · rw [group]
      simp [Assembly.Block.group, Item.isGap]
    · rw [group]
      rfl
  | @cons n b rest before label tight ending _ ih =>
    obtain ⟨pairs, s, items, run, gaps, blocks⟩ := ih small
      (pos + (b.before ++ b.lines n).length)
    have run' := run_block label tight ending ((le_final _ rest).trans small)
    obtain ⟨front, item, last, inst⟩ := Block.items_last ending
    have nonempty : b.items n ≠ [] := by
      rw [last]
      simp
    have opened := group_openWith nonempty (b.name n) pairs (pos + b.before.length)
    rw [Block.lines_items, Nat.add_assoc, ← List.length_append, last,
      ofItems_append_gaps inst gaps, ← last, Block.lines_items, Block.instructions_items, blocks]
      at opened
    have group := group_unopened (b.before.map Item.gap) (openWith (b.name n) (b.items n) ++ pairs) pos
    rw [flatMap_lines_gaps, opened, List.append_nil] at group
    refine ⟨_, s, ?_, run_append (run_gaps _ b.before) (run_append run' run), ?_, ?_⟩
    · rw [body, List.append_assoc, List.append_assoc, ofLines_gaps before,
        Block.ofLines_lines label ending, ← items]
      simp [Function.comp_def, map_fst_openWith]
    · rw [group]
      simp [Item.isGap]
    · rw [group]
      rfl

/-- **Reading undoes printing**, at the level of a body. -/
theorem ofBody_body {n : Nat} {bs : List Block} (fits : Fits n bs) {after : List Text}
    (gap : ∀ line ∈ after, IsGap line) (small : final n bs ≤ 10 ^ Numeral.digitLimit) (pos : Nat) :
    Assembly.Block.ofBody n pos (body n bs ++ after) = .ok (blocks n pos bs) := by
  obtain ⟨pairs, s, items, run, -, blocks⟩ := reading fits gap small pos
  have opened := Slots.openings_iff.2 ⟨items, s, run⟩
  exact bind_eq_ok.2 ⟨pairs, opened, congrArg Except.ok blocks⟩

/-- A line that ends the body would start an instruction. -/
theorem ofLine?_closesBody {line : Text} (h : Chunk.closesBody line = true) :
    Item.ofLine? line = none := by
  have trim : line.trim = ['}'] := by simpa [Chunk.closesBody] using h
  have front : ∃ rest, Text.dropBlank line = '}' :: rest := by
    have head := Text.head?_trim line
    rw [trim, List.head?_cons] at head
    cases rest : Text.dropBlank line with
    | nil => rw [rest] at head; cases head
    | cons c rest' =>
      rw [rest, List.head?_cons, Option.some.injEq] at head
      exact ⟨rest', by rw [head]⟩
  obtain ⟨rest, front⟩ := front
  have label : label? line = none := by
    unfold label?
    rw [front]
    rfl
  have comment : line.trim.head? ≠ some ';' := by
    rw [trim]
    decide
  rw [Item.ofLine?, slotMark?_eq_none comment]
  simp [trim, label]

theorem not_closesBody {line : Text} {item : Item} (h : Item.ofLine? line = some item) :
    Chunk.closesBody line = false := by
  by_contra closes
  rw [ofLine?_closesBody (by simpa using closes)] at h
  cases h

theorem not_closesBody_gap {line : Text} (h : IsGap line) : Chunk.closesBody line = false :=
  not_closesBody (Item.ofLine?_gap h)

theorem not_closesBody_instLines {n : Nat} {insts : List (List Text × Inst)}
    (ending : Ending n insts) : ∀ line ∈ instLines n insts, Chunk.closesBody line = false := by
  induction ending with
  | last gap fits _ =>
    intro line h
    simp only [instLines, List.append_nil] at h
    rcases List.mem_append.1 h with h | h
    · exact not_closesBody_gap (gap line h)
    · exact fits.inner line h
  | cons gap fits _ _ ih =>
    intro line h
    simp only [instLines] at h
    rcases List.mem_append.1 h with h | h
    · rcases List.mem_append.1 h with h | h
      · exact not_closesBody_gap (gap line h)
      · exact fits.inner line h
    · exact ih line h

/-- A printed body does not end before it ends. -/
theorem not_closesBody_body {n : Nat} {bs : List Block} (fits : Fits n bs) :
    ∀ line ∈ body n bs, Chunk.closesBody line = false := by
  induction fits with
  | nil => simp [body]
  | @cons n b rest before label _ ending _ ih =>
    intro line h
    rw [body, Block.lines] at h
    rcases List.mem_append.1 h with h | h
    · rcases List.mem_append.1 h with h | h
      · exact not_closesBody_gap (before line h)
      · rcases List.mem_append.1 h with h | h
        · obtain ⟨l, hl, rfl⟩ := Option.map_eq_some_iff.1 (Option.mem_toList.1 h)
          exact not_closesBody (ofLine?_label (label l hl))
        · exact not_closesBody_instLines ending line h
    · exact ih line h

/-- The function that is to be read from a header and a printed body. -/
def function (header : List Text) (closing name : Text) (slot : Nat) (bs : List Block)
    (after : List Text) : Function where
  name
  header
  body := body slot bs ++ after
  closing
  blocks := blocks slot header.length bs
  dbg := debugRef? (Function.headerText header)

/-- Where no locations are defined, the instructions of a printed body stay without one. -/
theorem locateFunction_function {m : Module} (none : m.locations = []) (header : List Text)
    (closing name : Text) (slot : Nat) (bs : List Block) (after : List Text) :
    m.locateFunction (function header closing name slot bs after) =
      function header closing name slot bs after := by
  have inst : ∀ n i, m.locate (Inst.read n i) = i.read n := fun n i => by
    have nowhere : (i.read n).dbg.bind m.locations.get? = Option.none := by
      rw [none]
      cases (i.read n).dbg <;> rfl
    rw [Module.locate, nowhere]
    rfl
  have insts : ∀ n is, (instructions n is).map m.locate = instructions n is := fun n is => by
    induction is generalizing n with
    | nil => rfl
    | cons p is ih => rw [instructions, List.map_cons, inst, ih]
  have located : ∀ n pos, (blocks n pos bs).map m.locateBlock = blocks n pos bs := by
    induction bs with
    | nil => exact fun _ _ => rfl
    | cons b bs ih => exact fun n pos => by rw [blocks, List.map_cons, ih, Module.locateBlock, insts]
  rw [function, Module.locateFunction, located]

/-- **Reading undoes printing.** A text that is a header, a printed body and a closing brace is read
as one function with the blocks that were printed: their names, their lines and their instructions,
in order. The slots count from the parameters of the header. That no slot reaches the longest
numeral that can be read at all is no matter of texts of any real size. -/
theorem ofText_printed {text name : Text} {header : List Text} {closing : Text} {ident : Ident}
    {rest : Text} {bs : List Block} {after : List Text} (framed : Chunk.Framed header [] closing)
    (callee : Function.callee? (Function.headerText header) = some (ident, rest)) {slot : Nat}
    (slots : slot = Function.slotCount (Function.parameters rest)) (fits : Fits slot bs)
    (gap : ∀ line ∈ after, IsGap line) (small : final slot bs ≤ 10 ^ Numeral.digitLimit)
    (lines : text.lines = header ++ (body slot bs ++ after) ++ [closing]) :
    Module.ofText text name =
      .ok { name, text, funcs := [function header closing ident.name slot bs after] } := by
  have inside : ∀ line ∈ body slot bs ++ after, Chunk.closesBody line = false := by
    intro line h
    rcases List.mem_append.1 h with h | h
    · exact not_closesBody_body fits line h
    · exact not_closesBody_gap (gap line h)
  have framed : Chunk.Framed header (body slot bs ++ after) closing :=
    { framed with body := inside }
  have chunks : Chunk.ofLines text.lines = [.define header (body slot bs ++ after) closing] := by
    obtain ⟨⟨first, head, -⟩, -⟩ := id framed
    cases header with
    | nil => cases head
    | cons line header =>
      have next := Chunk.next_of_framed framed []
      rw [List.append_nil] at next
      rw [lines, List.cons_append, List.cons_append, Chunk.ofLines_cons, next, Chunk.ofLines_nil]
  have read : Function.ofLines header (body slot bs ++ after) closing =
      .ok (function header closing ident.name slot bs after) := by
    unfold Function.ofLines
    simp only [callee]
    rw [← slots, ofBody_body fits gap small]
    rfl
  unfold Module.ofText
  rw [chunks, List.foldlM_cons, Module.add, read]
  show Except.ok (Module.resolved { name, text, funcs := [_] }) = _
  rw [Module.resolved, List.map_singleton, locateFunction_function rfl]

/-- Blocks with each kind of label and with none, and a call on two lines. -/
def fourKinds : List Block :=
  [⟨[], none, [([], .numbered " " "add i32 %0, 1" []), ([], .plain "br label %a" [])]⟩,
    ⟨[";"], some (.named "" "a" " ;"), [([[]], .plain "call @g(" [" 1)"]), ([], .plain "ret" [])]⟩,
    ⟨[[]], some (.commented "" ""), [([], .plain "ret" [])]⟩,
    ⟨[], some (.numbered "" ""), [([], .plain "ret" [])]⟩]

/-- The text of a function with these blocks. -/
def fourKindsText : Text :=
  "define void @f(i32) \x7b\n %2 = add i32 %0, 1\nbr label %a\n;\na: ;\n\ncall @g(\n 1)\nret\n\n" ++
    "; <label>:3:\nret\n4:\nret\n\n\x7d\n"

theorem ofText_printed_four_kinds :
    ∃ m, Module.ofText fourKindsText = .ok m ∧
      m.funcs.map (fun f => f.blocks.map (·.name)) = [["1".toList, "a", "3", "4"]] := by
  have header : Chunk.Framed ["define void @f(i32) \x7b"] [] "\x7d" :=
    ⟨⟨_, rfl, by decide⟩, ⟨[], _, rfl, by decide, by simp⟩, by simp, by decide⟩
  have fits : Fits 1 fourKinds := by decide +kernel
  have small : final 1 fourKinds ≤ 10 ^ Numeral.digitLimit :=
    calc final 1 fourKinds
      _ ≤ 10 ^ 1 := by decide
      _ ≤ 10 ^ Numeral.digitLimit := Nat.pow_le_pow_right (by decide) (by decide)
  have read := @ofText_printed fourKindsText "stdin" _ _ (.bare "f") "i32) \x7b" _ [[]] header
    (by cbv) 1 (by cbv) fits (by decide +kernel) small (by cbv)
  exact ⟨_, read, by decide +kernel⟩

end Layout

end FlowReport.Assembly
