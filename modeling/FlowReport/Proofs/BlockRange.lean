import FlowReport.Highlight
import FlowReport.Proofs.Occurrence
import FlowReport.Proofs.Partition

/-!
# The lines of a block

The lines that are highlighted for a block are found by its text. They are the lines of the block
unless its text is met above it, on its own or as the end of other lines, or ends with an empty
line; then they are other lines or one line less.
-/

namespace FlowReport

open Assembly

/-- The lines of a block within its function, counted from one. -/
def Assembly.Block.range (b : Block) : LineRange := ⟨b.first + 1, b.first + b.lines.length⟩

namespace Highlight

/-- The text of a block is met above the block: its lines are found from within an earlier line of
the function on. -/
def Shadowed (f : Function) (b : Block) : Prop :=
  ∃ i < b.first, Text.Covers b.lines (f.lines.drop i)

instance (f : Function) (b : Block) : Decidable (Shadowed f b) :=
  inferInstanceAs (Decidable (∃ i < b.first, _))

/-- The line feeds of joined lines, without one at the end. -/
theorem count_withoutFinalBreak {ls : List Text} (unbroken : ∀ l ∈ ls, '\n' ∉ l)
    (nonempty : ls ≠ []) :
    (LineRange.withoutFinalBreak (Text.join ['\n'] ls)).count '\n' + 1 +
      (if (Text.join ['\n'] ls).getLast? = some '\n' then 1 else 0) = ls.length := by
  have count := Text.count_join unbroken nonempty
  unfold LineRange.withoutFinalBreak
  split
  · rename_i ends
    rw [← List.dropLast_append_getLast? _ ends, List.count_append, List.count_singleton_self]
      at count
    omega
  · omega

/-- The lines that are found for a block begin on the first line from which on its text is met,
and its final line is missing if it is empty. -/
theorem blockRange_eq {f : Function} {b : Block}
    (slice : (f.lines.drop b.first).take b.lines.length = b.lines)
    (unbroken : ∀ l ∈ f.lines, '\n' ∉ l) (nonempty : b.lines ≠ []) :
    ∃ i, IsLeast {j | Text.Covers b.lines (f.lines.drop j)} i ∧ i ≤ b.first ∧
      blockRange f b = .ok ⟨i + 1, i + b.lines.length -
        (if b.text.getLast? = some '\n' then 1 else 0)⟩ := by
  have inside : ∀ l ∈ b.lines, '\n' ∉ l := by
    intro l hl
    rw [← slice] at hl
    exact unbroken l (List.mem_of_mem_drop (List.mem_of_mem_take hl))
  have here : Text.Covers b.lines (f.lines.drop b.first) := by
    have split := List.take_append_drop b.lines.length (f.lines.drop b.first)
    rw [slice] at split
    rw [← split]
    exact Text.covers_of_begins (by simp [nonempty]) (Text.begins_append _)
  obtain ⟨before, found, cut, least⟩ :=
    Text.cutBefore?_join nonempty (by simp [Function.lines]) inside unbroken here
  have count := count_withoutFinalBreak inside nonempty
  refine ⟨_, least, least.2 here, ?_⟩
  unfold blockRange LineRange.locate? Function.text Block.text
  rw [cut]
  simp only [Option.map_some, Except.ok.injEq, LineRange.mk.injEq]
  refine ⟨rfl, ?_⟩
  by_cases ends : (Text.join ['\n'] b.lines).getLast? = some '\n'
  · rw [if_pos ends] at count ⊢
    omega
  · rw [if_neg ends] at count ⊢
    omega

/-- The lines that are found for a block are its own in just these cases. -/
theorem blockRange_eq_range_iff {f : Function} {b : Block}
    (slice : (f.lines.drop b.first).take b.lines.length = b.lines)
    (unbroken : ∀ l ∈ f.lines, '\n' ∉ l) (nonempty : b.lines ≠ []) :
    blockRange f b = .ok b.range ↔ ¬ Shadowed f b ∧ b.text.getLast? ≠ some '\n' := by
  obtain ⟨i, least, below, range⟩ := blockRange_eq slice unbroken nonempty
  have shadowed : Shadowed f b ↔ i < b.first := by
    constructor
    · rintro ⟨j, hj, covers⟩
      exact (least.2 covers).trans_lt hj
    · intro h
      exact ⟨i, h, least.1⟩
  rw [range, Block.range, shadowed, Except.ok.injEq, LineRange.mk.injEq]
  by_cases ends : b.text.getLast? = some '\n'
  · simp only [ends, if_true, ne_eq, not_true_eq_false, and_false, iff_false]
    omega
  · simp only [ends, if_false, ne_eq, not_false_eq_true, and_true]
    omega

/-- What is found under a name is a block of the function. -/
theorem mem_of_findBlock {f : Function} {name : WideText} {b : Block}
    (h : findBlock f name = .ok b) : b ∈ f.blocks := by
  unfold findBlock at h
  split at h
  · rename_i found
    cases h
    obtain ⟨text, -, found⟩ := Option.bind_eq_some_iff.1 found
    exact List.mem_of_find?_eq_some found
  · cases h

/-- A list of computations succeeds with the values of its members if each of them does. -/
theorem mapM_eq_ok_map_iff {ε α β : Type} {g : α → Except ε β} {r : α → β} {l : List α} :
    l.mapM g = .ok (l.map r) ↔ ∀ a ∈ l, g a = .ok (r a) := by
  rw [mapM_eq_ok_iff, List.forall₂_map_right_iff, List.forall₂_same]

/-- The blocks of the nodes first, and then their lines. -/
theorem assembly_of_blocks {f : Function} {nodes : List WideText} {bs : List Block}
    (found : nodes.mapM (findBlock f) = .ok bs) : assembly f nodes = bs.mapM (blockRange f) := by
  induction nodes generalizing bs with
  | nil =>
    cases found
    rfl
  | cons name nodes ih =>
    rw [List.mapM_cons] at found
    obtain ⟨b, hb, found⟩ := bind_eq_ok.1 found
    obtain ⟨bs, hbs, found⟩ := bind_eq_ok.1 found
    cases found
    unfold assembly at ih ⊢
    rw [List.mapM_cons, List.mapM_cons, hb, ih hbs]
    rfl

theorem forall_mem_of_blocks {f : Function} {nodes : List WideText} {bs : List Block}
    (found : nodes.mapM (findBlock f) = .ok bs) : ∀ b ∈ bs, b ∈ f.blocks := by
  intro b hb
  obtain ⟨name, -, h⟩ := (mem_of_mapM_eq_ok found).1 hb
  exact mem_of_findBlock h

/-- The lines that are found for a block of an accepted text are those that it occupies if and only
if its text is not met above it and does not end with an empty line. The same holds of the lines
that are highlighted for the nodes of a primitive. -/
theorem blockRange_exact_iff {text name : Text} {m : Module} (h : Module.ofText text name = .ok m) :
    ∀ f ∈ m.funcs,
      (∀ b ∈ f.blocks, (f.lines.drop b.first).take b.lines.length = b.lines ∧
        (blockRange f b = .ok b.range ↔ ¬ Shadowed f b ∧ b.text.getLast? ≠ some '\n')) ∧
      ∀ nodes bs, nodes.mapM (findBlock f) = .ok bs →
        (assembly f nodes = .ok (bs.map Block.range) ↔
          ∀ b ∈ bs, ¬ Shadowed f b ∧ b.text.getLast? ≠ some '\n') := by
  intro f member
  have accounted := Module.accounted_of_ofText h member
  have unbroken : ∀ l ∈ f.lines, '\n' ∉ l := fun l hl within =>
    absurd (Text.unbroken_lines text l (Module.mem_lines_of_ofText h member l hl) _ within)
      (by decide)
  have slice : ∀ b ∈ f.blocks, (f.lines.drop b.first).take b.lines.length = b.lines :=
    fun b hb => accounted.blocks.slice _ (List.mem_map_of_mem hb)
  have exact : ∀ b ∈ f.blocks,
      blockRange f b = .ok b.range ↔ ¬ Shadowed f b ∧ b.text.getLast? ≠ some '\n' := fun b hb =>
    blockRange_eq_range_iff (slice b hb) unbroken (accounted.nonempty b hb)
  constructor
  · intro b hb
    exact ⟨slice b hb, exact b hb⟩
  · intro nodes bs found
    rw [assembly_of_blocks found, mapM_eq_ok_map_iff]
    exact forall₂_congr fun b hb => exact b (forall_mem_of_blocks found b hb)

/-- The label of the second block is the end of the label of the first one, and so is its text. -/
def suffixLabel : Text :=
  "define void @f() \x7b\nx1:\n  ret void\n1:\n  ret void\n\x7d\n"

theorem blockRange_exact_suffix_label :
    ∃ m, Module.ofText suffixLabel = .ok m ∧
      (m.funcs.flatMap fun f => f.blocks.map fun b => decide (Shadowed f b)) = [false, true] ∧
      ∀ f ∈ m.funcs, ∀ b ∈ f.blocks,
        blockRange f b = .ok b.range ↔ ¬ Shadowed f b ∧ b.text.getLast? ≠ some '\n' := by
  refine ⟨_, by cbv, by cbv, ?_⟩
  intro f member b hb
  have exact := @blockRange_exact_iff suffixLabel "stdin" _ (by cbv) f member
  exact (exact.1 b hb).2

/-- The second block stands in the fourth and the fifth line, and the second and the third one are
found for it. -/
theorem blockRange_not_exact :
    ∃ m f b, Module.ofText suffixLabel = .ok m ∧ f ∈ m.funcs ∧ b ∈ f.blocks ∧
      (f.lines.drop b.first).take b.lines.length = b.lines ∧
      b.range = ⟨4, 5⟩ ∧ blockRange f b = .ok ⟨2, 3⟩ := by
  refine ⟨_, _, _, by cbv, List.mem_cons_self, List.mem_cons_of_mem _ List.mem_cons_self, ?_⟩
  refine ⟨by cbv, by cbv, by cbv⟩

end Highlight

end FlowReport
