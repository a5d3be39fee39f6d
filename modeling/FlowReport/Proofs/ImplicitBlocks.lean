import FlowReport.Proofs.Numerals
import FlowReport.Proofs.Partition

/-!
# Blocks without a label

A block that no line opens is opened by its first instruction, under the next free slot. The slots
behind some items bound every slot that these items took, and they are closed exactly when the last
instruction was a terminator. Both facts together say where such blocks begin and that their names
are fresh.
-/

namespace FlowReport.Assembly

namespace Instruction

/-- The slot that an instruction takes for its result. -/
def slot? (i : Instruction) : Option Nat := (resultSlot? i.text).map Numeral.value

/-- The instruction ends its block. -/
def ends (i : Instruction) : Bool := isTerminator i.text

end Instruction

namespace Block

/-- The slot that a block takes for its name. -/
def slot? (name : Text) : Option Nat :=
  if name ≠ [] ∧ name.all isDigitLike then some (Numeral.value name) else none

/-- The slots that a block and its instructions take. -/
def slots (b : Block) : List Nat := (slot? b.name).toList ++ b.insts.filterMap Instruction.slot?

/-- The block begins with a line that opens it. -/
def Labelled (b : Block) : Prop := ∃ line ∈ b.lines.head?, IsMark line

/-- The numeral of a number takes that number as its slot. -/
theorem slot?_ofNat (n : Nat) : slot? (Numeral.ofNat n) = some n := by
  have digits : (Numeral.ofNat n).all isDigitLike = true := by
    refine List.all_eq_true.2 fun c member => ?_
    rw [isDigitLike, isDecimal_of_isDigit (Numeral.isDigit_of_mem_ofNat member), Bool.true_or]
  rw [slot?, if_pos ⟨Numeral.ofNat_ne_nil n, digits⟩, Numeral.value_ofNat]

/-- A block takes the slots of its name and of its instructions. -/
theorem slots_lt_iff {b : Block} {n : Nat} : (∀ slot ∈ b.slots, slot < n) ↔
    (∀ slot ∈ slot? b.name, slot < n) ∧ ∀ i ∈ b.insts, ∀ slot ∈ i.slot?, slot < n := by
  simp only [slots, List.forall_mem_append, Option.mem_toList, List.mem_filterMap, Option.mem_def]
  exact and_congr_right fun _ =>
    ⟨fun h i member slot own => h slot ⟨i, member, own⟩, fun h slot ⟨i, member, own⟩ =>
      h i member slot own⟩

end Block

namespace Function

/-- The number of slots that the parameters in a header take. -/
def parameterSlots (header : List Text) : Nat :=
  match callee? (headerText header) with
  | some (_, rest) => slotCount (parameters rest)
  | none => 0

/-- What holds of a block that no line opens and that has the blocks `before` in front of it. -/
structure Implicit (f : Function) (before : List Block) (b : Block) : Prop where
  nonempty : b.insts ≠ []
  /-- It is the first block, or stands behind a terminator. -/
  behind : ∀ c ∈ before.getLast?, ∃ i ∈ c.terminator?, i.ends = true
  /-- Its name is a number behind the slots of the parameters and of all blocks before it. -/
  named : ∃ n, b.name = Numeral.ofNat n ∧ parameterSlots f.header ≤ n ∧
    ∀ c ∈ before, ∀ slot ∈ c.slots, slot < n
  fresh : ∀ c ∈ before, c.name ≠ b.name
  /-- Its name leads to it. -/
  found : f.block? b.name = some b

/-- Terminators end blocks, and blocks without a label begin only where they must. -/
structure Numbered (f : Function) : Prop where
  terminators : ∀ b ∈ f.blocks, ∀ i ∈ b.insts.dropLast, i.ends = false
  implicit : ∀ before b after, f.blocks = before ++ b :: after → ¬ b.Labelled →
    f.Implicit before b

end Function

namespace Item

/-- An item of instruction lines holds one instruction, with their text. -/
theorem exists_instruction (first : Text) (more : List Text) :
    ∃ i, (Item.inst first more).instruction? = some i ∧ i.text = textOf (first :: more) :=
  ⟨_, rfl, rfl⟩

/-- The items that are marks stand for lines that open blocks. -/
theorem isMark_of_mem {ls : List Text} {name line : Text}
    (member : mark name line ∈ ofLines ls) : IsMark line := by
  fun_induction ofLines ls with
  | case1 => cases member
  | case2 first rest single h ih =>
    rcases List.mem_cons.1 member with rfl | member
    · rcases ofLine?_cases first with ⟨_, h', hm⟩ | ⟨h', -⟩ | ⟨h', -⟩ <;> rw [h'] at h <;> cases h
      exact hm
    · exact ih member
  | case3 first rest h more ih =>
    rcases List.mem_cons.1 member with same | member
    · cases same
    · exact ih member

/-- So do the marks among items that were read. -/
theorem isMark_of_pairs {ls : List Text} {pairs : List (Item × Option Text)}
    (same : pairs.map (·.1) = ofLines ls) :
    ∀ p ∈ pairs, ∀ name line, p.1 = .mark name line → IsMark line := by
  intro p member name line mark
  refine @isMark_of_mem ls name line ?_
  rw [← same, ← mark]
  exact List.mem_map_of_mem member

end Item

namespace Slots

/-- A number that was read is the value of its digits. -/
theorem value_of_read {s : Text} {n : Nat} (read : Numeral.read s = .ok n) : Numeral.value s = n := by
  unfold Numeral.read at read
  simp only at read
  split at read
  · cases read
  split at read
  · exact Except.ok.inj read
  · cases read

/-- A number is written as its numeral. -/
theorem eq_of_write {n : Nat} {s : Text} (written : Numeral.write n = .ok s) :
    s = Numeral.ofNat n := by
  unfold Numeral.write at written
  simp only at written
  split at written
  · exact (Except.ok.inj written).symm
  · cases written

/-- Behind the opening of a block its slot is taken, and instructions may follow. -/
theorem opened_spec {s t : Slots} {name : Text} (h : s.opened name = .ok t) :
    t.closed = false ∧ s.next ≤ t.next ∧ ∀ slot ∈ Block.slot? name, slot < t.next := by
  unfold opened at h
  unfold Block.slot?
  split at h
  · rename_i digits
    obtain ⟨n, read, h⟩ := bind_eq_ok.1 h
    cases h
    refine ⟨rfl, Nat.le_max_left _ _, fun slot member => ?_⟩
    rw [if_pos digits, value_of_read read, Option.mem_some_iff] at member
    subst member
    exact Nat.le_max_right _ _
  · rename_i other
    cases h
    refine ⟨rfl, Nat.le_refl _, fun slot member => ?_⟩
    rw [if_neg other] at member
    cases member

/-- Behind an instruction the slot of its result is taken, and a terminator has closed its block. -/
theorem passed_spec {s t : Slots} {i : Instruction} (h : s.passed i.text = .ok t) :
    t.closed = i.ends ∧ s.next ≤ t.next ∧ ∀ slot ∈ i.slot?, slot < t.next := by
  unfold passed at h
  unfold Instruction.slot? Instruction.ends
  split at h
  · rename_i digits found
    obtain ⟨n, read, h⟩ := bind_eq_ok.1 h
    cases h
    refine ⟨rfl, Nat.le_max_left _ _, fun slot member => ?_⟩
    rw [found, Option.map_some, value_of_read read, Option.mem_some_iff] at member
    subst member
    exact Nat.le_max_right _ _
  · rename_i none
    cases h
    refine ⟨rfl, Nat.le_refl _, fun slot member => ?_⟩
    rw [none] at member
    cases member

/-- Whether a block is closed behind instructions, if it is so before them. -/
def closedBehind (closed : Bool) : List Instruction → Bool
  | [] => closed
  | i :: insts => closedBehind i.ends insts

/-- Whether a block is closed behind some blocks, if it is so before them. -/
def closedBetween (closed : Bool) : List Block → Bool
  | [] => closed
  | b :: before => closedBetween (closedBehind false b.insts) before

/-- A block is closed by its last instruction. -/
theorem exists_of_closedBehind {insts : List Instruction} (h : closedBehind false insts = true) :
    ∃ i ∈ insts.getLast?, i.ends = true := by
  cases insts with
  | nil => cases h
  | cons i insts =>
    induction insts generalizing i with
    | nil => exact ⟨i, rfl, h⟩
    | cons j insts ih => simpa using ih j h

/-- The last block decides. -/
theorem exists_of_closedBetween {closed : Bool} {before : List Block}
    (h : closedBetween closed before = true) :
    ∀ c ∈ before.getLast?, ∃ i ∈ c.terminator?, i.ends = true := by
  induction before generalizing closed with
  | nil => exact fun c last => by cases last
  | cons b before ih =>
    intro c last
    cases before with
    | nil =>
      cases last
      exact exists_of_closedBehind h
    | cons d before =>
      have behind : closedBetween (closedBehind false b.insts) (d :: before) = true := h
      exact ih behind c (by simpa using last)

/-- What is known, from the slots, of the instructions `insts` that still belong to the block
before, and of the blocks behind them. -/
structure Sound (s : Slots) (insts : List Instruction) (blocks : List Block) : Prop where
  /-- Nothing more belongs to a closed block. -/
  empty : s.closed = true → insts = []
  last : ∀ i ∈ insts.dropLast, i.ends = false
  terminators : ∀ b ∈ blocks, ∀ i ∈ b.insts.dropLast, i.ends = false
  implicit : ∀ before b after, blocks = before ++ b :: after → ¬ b.Labelled →
    b.insts ≠ [] ∧ closedBetween (closedBehind s.closed insts) before = true ∧
    ∃ n, b.name = Numeral.ofNat n ∧ s.next ≤ n ∧
      (∀ i ∈ insts, ∀ slot ∈ i.slot?, slot < n) ∧ ∀ c ∈ before, ∀ slot ∈ c.slots, slot < n

namespace Sound

variable {s t : Slots} {insts : List Instruction} {blocks : List Block}

/-- One more instruction of the block before. -/
theorem cons {i : Instruction} (passed : s.passed i.text = .ok t) (unclosed : s.closed = false)
    (sound : Sound t insts blocks) : Sound s (i :: insts) blocks where
  empty closed := by
    rw [unclosed] at closed
    cases closed
  last := by
    cases insts with
    | nil => exact fun _ member => by cases member
    | cons j insts =>
      -- a terminator would have closed the block that `j` belongs to
      have own : i.ends = false := by
        rw [← (passed_spec passed).1, ← Bool.not_eq_true]
        exact fun closed => List.cons_ne_nil _ _ (sound.empty closed)
      exact List.forall_mem_cons.2 ⟨own, sound.last⟩
  terminators := sound.terminators
  implicit before b after split unlabelled := by
    obtain ⟨closed, low, own⟩ := passed_spec passed
    obtain ⟨nonempty, between, n, name, free, above, others⟩ :=
      sound.implicit before b after split unlabelled
    refine ⟨nonempty, ?_, n, name, low.trans free, ?_, others⟩
    · rw [closedBehind, ← closed]
      exact between
    · exact List.forall_mem_cons.2 ⟨fun slot member => (own slot member).trans_le free, above⟩

/-- A block opens: the instructions up to the next block are its own. -/
theorem opened {b : Block} (opened : s.opened b.name = .ok t) (own : b.insts = insts)
    (implicit : ¬ b.Labelled → b.insts ≠ [] ∧ s.closed = true ∧ b.name = Numeral.ofNat s.next)
    (sound : Sound t insts blocks) : Sound s [] (b :: blocks) where
  empty _ := rfl
  last := fun _ member => by cases member
  terminators := List.forall_mem_cons.2 ⟨own ▸ sound.last, sound.terminators⟩
  implicit before c after split unlabelled := by
    obtain ⟨unclosed, low, name⟩ := opened_spec opened
    cases before with
    | nil =>
      obtain ⟨rfl, rfl⟩ := List.cons.inj split
      obtain ⟨nonempty, closed, numeral⟩ := implicit unlabelled
      exact ⟨nonempty, closed, s.next, numeral, Nat.le_refl _, by simp, by simp⟩
    | cons d before =>
      rw [List.cons_append] at split
      obtain ⟨rfl, rest⟩ := List.cons.inj split
      obtain ⟨nonempty, between, n, numeral, free, above, others⟩ :=
        sound.implicit before c after rest unlabelled
      refine ⟨nonempty, ?_, n, numeral, low.trans free, by simp, ?_⟩
      · rw [closedBetween, own, ← unclosed]
        exact between
      · refine List.forall_mem_cons.2 ⟨Block.slots_lt_iff.2 ⟨?_, own ▸ above⟩, others⟩
        exact fun slot member => (name slot member).trans_le free

end Sound

/-- A block begins with the first line of the item that opens it. -/
theorem labelled_ofItems (name : Text) (pos : Nat) {opener : Item} (opens : opener.isGap = false)
    (more : List Item) : (Block.ofItems name pos (opener :: more)).Labelled ↔
      ∃ line ∈ opener.lines.head?, IsMark line := by
  rw [Block.Labelled, Block.lines_ofItems, Block.withoutGaps_cons opens, List.flatMap_cons]
  cases opener <;> simp

/-- What the slots say holds of what is read behind them. -/
theorem sound_group {s s' : Slots} {pairs : List (Item × Option Text)} (run : s.Run pairs s')
    (marks : ∀ p ∈ pairs, ∀ name line, p.1 = .mark name line → IsMark line) (pos : Nat) :
    Sound s ((Block.group pos pairs).1.filterMap Item.instruction?) (Block.group pos pairs).2 := by
  induction run generalizing pos with
  | nil s =>
    refine ⟨fun _ => rfl, ?_, ?_, ?_⟩
    all_goals simp [Block.group]
  | @cons s mid s' item name? pairs head tail ih =>
    obtain ⟨own, others⟩ := List.forall_mem_cons.1 marks
    have sound := ih others (pos + item.lines.length)
    cases head with
    | gap line =>
      rw [Block.group, List.filterMap_cons_none (Item.instruction_gap line)]
      exact sound
    | @mark name _ line opened =>
      have opens : (Item.mark name line).isGap = false := rfl
      have labelled := (labelled_ofItems name pos opens (Block.group (pos + 1) pairs).1).2
        ⟨line, rfl, own name line rfl⟩
      exact sound.opened opened (List.filterMap_cons_none (Item.instruction_mark name line))
        fun bare => absurd labelled bare
    | @next line more _ unclosed passed =>
      obtain ⟨i, held, text⟩ := Item.exists_instruction line more
      rw [Block.group, List.filterMap_cons_some held]
      exact sound.cons (text ▸ passed) unclosed
    | @first line more name opened _ closed written open' passed =>
      obtain ⟨i, held, text⟩ := Item.exists_instruction line more
      have mine := List.filterMap_cons_some held
        (l := (Block.group (pos + (Item.inst line more).lines.length) pairs).1)
      refine (sound.cons (text ▸ passed) (opened_spec open').1).opened open' mine fun _ => ?_
      refine ⟨?_, closed, eq_of_write written⟩
      rw [Block.ofItems, mine]
      exact List.cons_ne_nil _ _

end Slots

namespace Function

/-- The items of a body were read behind the slots of the parameters, and the blocks of the function
are their groups. -/
theorem exists_run {header body : List Text} {closing : Text} {f : Function}
    (h : ofLines header body closing = .ok f) : ∃ pairs s', pairs.map (·.1) = Item.ofLines body ∧
      Slots.Run ⟨parameterSlots header, true⟩ pairs s' ∧ f.header = header ∧ f.body = body ∧
      f.blocks = (Block.group header.length pairs).2 := by
  obtain ⟨ident, rest, blocks, callee, read, rfl⟩ := of_ofLines h
  obtain ⟨pairs, opened, grouped⟩ := bind_eq_ok.1 read
  obtain ⟨same, s', run⟩ := Slots.openings_iff.1 opened
  have slots : parameterSlots header = slotCount (parameters rest) := by
    rw [parameterSlots, callee]
  exact ⟨pairs, s', same, slots ▸ run, rfl, rfl, (Except.ok.inj grouped).symm⟩

/-- The blocks of a function that was read from its lines. -/
theorem numbered_of_ofLines {header body : List Text} {closing : Text} {f : Function}
    (h : ofLines header body closing = .ok f) : f.Numbered := by
  obtain ⟨pairs, s', same, run, rfl, rfl, blocks⟩ := exists_run h
  have sound := Slots.sound_group run (Item.isMark_of_pairs same) f.header.length
  rw [← blocks] at sound
  refine ⟨sound.terminators, fun before b after split unlabelled => ?_⟩
  obtain ⟨nonempty, between, n, numeral, free, -, others⟩ :=
    sound.implicit before b after split unlabelled
  have fresh : ∀ c ∈ before, c.name ≠ b.name := by
    intro c member same
    refine Nat.lt_irrefl n (others c member n ?_)
    rw [Block.slots, same, numeral, Block.slot?_ofNat]
    exact List.mem_cons_self
  refine ⟨nonempty, ?_, ⟨n, numeral, free, others⟩, fresh, ?_⟩
  · exact Slots.exists_of_closedBetween between
  · rw [block?, split, List.find?_append, List.find?_eq_none.2 (by simpa using fresh)]
    simp

end Function

namespace Module

/-- Locating instructions changes neither their texts nor the slots that they take. -/
@[simp] theorem slots_locateBlock (m : Module) (b : Block) : (m.locateBlock b).slots = b.slots := by
  simp only [Block.slots, locateBlock, List.filterMap_map]
  rfl

theorem numbered_locateFunction (m : Module) {f : Function} (h : f.Numbered) :
    (m.locateFunction f).Numbered where
  terminators := by
    intro b member i inner
    obtain ⟨b, own, rfl⟩ := List.mem_map.1 member
    rw [locateBlock, ← List.map_dropLast] at inner
    obtain ⟨j, before, rfl⟩ := List.mem_map.1 inner
    exact h.terminators b own j before
  implicit := by
    intro before b after split unlabelled
    obtain ⟨before, rest, blocks, rfl, behind⟩ := List.map_eq_append_iff.1 split
    obtain ⟨b, after, rfl, rfl, rfl⟩ := List.map_eq_cons_iff.1 behind
    obtain ⟨nonempty, behind, ⟨n, name, free, above⟩, fresh, found⟩ :=
      h.implicit before b after blocks unlabelled
    refine ⟨by simpa [locateBlock] using nonempty, ?_, ⟨n, name, free, ?_⟩, ?_, ?_⟩
    · intro c last
      rw [List.getLast?_map, Option.mem_def, Option.map_eq_some_iff] at last
      obtain ⟨c, last, rfl⟩ := last
      obtain ⟨i, final, ends⟩ := behind c last
      refine ⟨m.locate i, ?_, ends⟩
      rw [Block.terminator?, locateBlock, List.getLast?_map, Option.mem_def,
        show c.insts.getLast? = some i from final]
      rfl
    · intro c member
      obtain ⟨d, own, rfl⟩ := List.mem_map.1 member
      rw [slots_locateBlock]
      exact above d own
    · intro c member
      obtain ⟨d, own, rfl⟩ := List.mem_map.1 member
      exact fresh d own
    · rw [Function.block?, blocks_locateFunction, List.find?_map]
      exact congrArg (Option.map m.locateBlock) found

/-- **Blocks without a label begin only where they must, under fresh names.** In every function of a
text that was read, only the last instruction of a block is a terminator. A block that no line opens
is not empty, it is the first one or stands behind a terminator, and its name is the numeral of a
number behind all slots that were taken before; so it leads to this block. -/
theorem implicit_blocks_fresh {text name : Text} {m : Module} (h : ofText text name = .ok m)
    {f : Function} (member : f ∈ m.funcs) : f.Numbered := by
  obtain ⟨m', f', header, body, closing, rfl, -, read⟩ := exists_definition h member
  exact numbered_locateFunction m' (Function.numbered_of_ofLines read)

/-- A number as a label, a result behind it, and two blocks that no line opens. -/
def numberedText : Text :=
  "define void @f(i32 %x, i32) \x7b\n  br label %4\n; <label>:4:\n  %8 = call i8 @g()\n  ret void\n\n  ret void\n\x7d\n"

/-- The names of all blocks of a module. -/
def blockNames (m : Module) : List Text := m.funcs.flatMap fun f => f.blocks.map (·.name)

theorem implicit_blocks_fresh_numbered :
    ∃ m, ofText numberedText = .ok m ∧ blockNames m = [['1'], ['4'], ['9']] ∧
      ∀ f ∈ m.funcs, f.Numbered := by
  have names : (ofText numberedText).map blockNames = .ok [['1'], ['4'], ['9']] := by
    decide +kernel
  obtain ⟨m, read, names⟩ := map_eq_ok.1 names
  exact ⟨m, read, names, fun f => implicit_blocks_fresh read⟩

end Module

end FlowReport.Assembly
