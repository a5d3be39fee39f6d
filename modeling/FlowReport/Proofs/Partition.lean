import FlowReport.Proofs.Chunks
import FlowReport.Proofs.Join
import FlowReport.Proofs.Scan
import Mathlib.Data.List.Forall2
import Mathlib.Data.List.Permutation

/-!
# Where the lines of a module go

No line of a text is lost, doubled or moved when the text is read as a module: the functions are
stretches of its lines, the blocks of a function are stretches of the function's lines, what lies
outside of the blocks says nothing, and the lines inside that are no labels and no gaps are the
pieces of the instructions. All of this holds of any text that is accepted at all.
-/

namespace FlowReport.Assembly

namespace Item

/-- The lines of a gap say nothing. -/
theorem gap_lines {ls : List Text} {item : Item} (member : item ∈ ofLines ls)
    (isGap : item.isGap = true) : ∀ line ∈ item.lines, IsGap line := by
  fun_induction ofLines ls with
  | case1 => cases member
  | case2 line rest single h ih =>
    rcases List.mem_cons.1 member with rfl | member
    · rcases ofLine?_cases line with ⟨name, h', -⟩ | ⟨h', hg⟩ | ⟨h', -⟩ <;> rw [h'] at h <;> cases h
      · cases isGap
      · simpa using hg
    · exact ih member
  | case3 line rest h more ih =>
    rcases List.mem_cons.1 member with rfl | member
    · cases isGap
    · exact ih member

/-- A gap holds no instruction. -/
theorem instruction_of_isGap {item : Item} (isGap : item.isGap = true) :
    item.instruction? = none := by
  cases item with
  | gap line => rfl
  | mark => cases isGap
  | inst => cases isGap

end Item

namespace Block

/-- Only gaps are left out at the end of a block. -/
theorem withoutGaps_append (items : List Item) :
    ∃ gaps, items = withoutGaps items ++ gaps ∧ ∀ item ∈ gaps, item.isGap = true :=
  ⟨items.rtakeWhile Item.isGap, (List.rdropWhile_append_rtakeWhile ..).symm,
    fun _ h => List.mem_rtakeWhile_imp h⟩

/-- What opens a block is part of it. -/
theorem withoutGaps_cons {opener : Item} (opens : opener.isGap = false) (more : List Item) :
    withoutGaps (opener :: more) = opener :: withoutGaps more :=
  Text.rdropWhile_append_cons opens [] more

theorem lines_ofItems (name : Text) (pos : Nat) (items : List Item) :
    (ofItems name pos items).lines = (withoutGaps items).flatMap Item.lines := rfl

/-- The gaps at the end of a block hold none of its instructions. -/
theorem insts_ofItems (name : Text) (pos : Nat) (items : List Item) :
    (ofItems name pos items).insts = (withoutGaps items).filterMap Item.instruction? := by
  obtain ⟨gaps, same, isGap⟩ := withoutGaps_append items
  have none : gaps.filterMap Item.instruction? = [] :=
    List.filterMap_eq_nil_iff.2 fun item h => Item.instruction_of_isGap (isGap item h)
  conv_lhs => rw [show (ofItems name pos items).insts = items.filterMap Item.instruction? from rfl,
    same, List.filterMap_append, none, List.append_nil]

namespace Grouping

variable {pos : Nat} {items : List Item} {blocks : List Block}

/-- The blocks lie in the lines of their items, with nothing between them that says anything. -/
theorem tiling (h : Grouping pos items blocks)
    (gaps : ∀ item ∈ items, item.isGap = true → ∀ line ∈ item.lines, IsGap line) :
    Tiling IsGap pos (blocks.map fun b => (b.first, b.lines)) (items.flatMap Item.lines) := by
  induction h with
  | nil => exact .nil (by simp)
  | @cons pos opener more rest blocks name opens tail ih =>
    obtain ⟨left, same, isGap⟩ := withoutGaps_append (opener :: more)
    have skipped : ∀ line ∈ left.flatMap Item.lines, IsGap line := by
      intro line h
      obtain ⟨item, hi, hl⟩ := List.mem_flatMap.1 h
      refine gaps item (List.mem_append_left _ ?_) (isGap item hi) line hl
      rw [same]
      exact List.mem_append_right _ hi
    have nonempty : (ofItems name pos (opener :: more)).lines ≠ [] := by
      rw [lines_ofItems, withoutGaps_cons opens]
      cases opener <;> simp
    have rest := ih fun item h => gaps item (List.mem_append_right _ h)
    rw [List.flatMap_append, List.map_cons]
    conv in (List.flatMap Item.lines (opener :: more)) => rw [same]
    rw [List.flatMap_append, List.append_assoc]
    refine .cons_front nonempty (Tiling.skip_append ?_ skipped)
    rw [same, List.flatMap_append, List.length_append, ← Nat.add_assoc] at rest
    exact rest

/-- The instructions of the blocks are those of the items. -/
theorem insts (h : Grouping pos items blocks) :
    blocks.flatMap (·.insts) = items.filterMap Item.instruction? := by
  induction h with
  | nil => rfl
  | cons name opens tail ih =>
    rw [List.flatMap_cons, ih, List.filterMap_append]
    rfl

/-- Each block is a stretch of the items. -/
theorem stretch (h : Grouping pos items blocks) :
    ∀ b ∈ blocks, ∃ front middle back, items = front ++ middle ++ back ∧
      b.lines = middle.flatMap Item.lines ∧ b.insts = middle.filterMap Item.instruction? := by
  induction h with
  | nil => simp
  | @cons pos opener more rest blocks name opens tail ih =>
    refine List.forall_mem_cons.2 ⟨?_, ?_⟩
    · obtain ⟨left, same, -⟩ := withoutGaps_append (opener :: more)
      exact ⟨[], withoutGaps (opener :: more), left ++ rest,
        by rw [List.nil_append, ← List.append_assoc, ← same], lines_ofItems .., insts_ofItems ..⟩
    · intro b hb
      obtain ⟨front, middle, back, rfl, same⟩ := ih b hb
      exact ⟨opener :: more ++ front, middle, back, by simp, same⟩

end Grouping

end Block

namespace Function

/-- What a function that was read is made of. -/
theorem of_ofLines {header body : List Text} {closing : Text} {f : Function}
    (h : ofLines header body closing = .ok f) :
    ∃ ident rest blocks, callee? (headerText header) = some (ident, rest) ∧
      Block.ofBody (slotCount (parameters rest)) header.length body = .ok blocks ∧
      f = { name := ident.name, header, body, closing, blocks,
            dbg := debugRef? (headerText header) } := by
  unfold ofLines at h
  simp only at h
  split at h
  · cases h
  · rename_i ident rest found
    split at h
    · cases h
    · rename_i blocks read
      cases h
      exact ⟨ident, rest, blocks, found, read, rfl⟩

/-- Where the lines of a function go. -/
structure Accounted (f : Function) : Prop where
  /-- The lines are a header, a body and a closing brace. -/
  framed : Chunk.Framed f.header f.body f.closing
  /-- The blocks are stretches of the function's lines, in order. -/
  blocks : Stretches f.lines (f.blocks.map fun b => (b.first, b.lines))
  nonempty : ∀ b ∈ f.blocks, b.lines ≠ []
  /-- The blocks stand behind the header and before the closing brace. -/
  inside : ∀ b ∈ f.blocks, f.header.length ≤ b.first ∧
    b.first + b.lines.length ≤ f.header.length + f.body.length
  /-- A line of the body outside of the blocks is a gap. -/
  outside : ∀ i line, f.body[i]? = some line →
    (∀ b ∈ f.blocks, f.header.length + i < b.first ∨
      b.first + b.lines.length ≤ f.header.length + i) → IsGap line
  /-- The instruction lines of the body are the pieces of the instructions of the blocks. -/
  pieces : (f.blocks.flatMap (·.insts)).flatMap (·.pieces) =
    (instructionLines 0 f.body).map Text.trim
  /-- The instruction lines of a block are the pieces of its own instructions. -/
  ownPieces : ∀ b ∈ f.blocks, b.insts.flatMap (·.pieces) =
    (instructionLines 0 b.lines).map Text.trim
  /-- The text of a block is found in that of the function. -/
  text : ∀ b ∈ f.blocks, b.text <:+: f.text

theorem accounted_of_ofLines {header body : List Text} {closing : Text} {f : Function}
    (framed : Chunk.Framed header body closing) (h : ofLines header body closing = .ok f) :
    f.Accounted := by
  obtain ⟨ident, rest, blocks, -, read, rfl⟩ := of_ofLines h
  obtain ⟨head, items, cut, gaps, grouping⟩ := Block.ofBody_grouping read
  have whole : head.flatMap Item.lines ++ items.flatMap Item.lines = body := by
    rw [← List.flatMap_append, ← cut, Item.flatMap_lines_ofLines]
  have isGap : ∀ item ∈ head ++ items, item.isGap = true → ∀ line ∈ item.lines, IsGap line :=
    fun item h => Item.gap_lines (cut ▸ h)
  have tiling : Tiling IsGap header.length (blocks.map fun b => (b.first, b.lines)) body := by
    rw [← whole]
    apply (grouping.tiling fun item h => isGap item (List.mem_append_right _ h)).skip_append
    intro line h
    obtain ⟨item, hi, hl⟩ := List.mem_flatMap.1 h
    exact isGap item (List.mem_append_left _ hi) (gaps item hi) line hl
  have stretches := tiling.stretches [closing]
  refine ⟨framed, stretches, ?_, ?_, ?_, ?_, ?_, ?_⟩
  · exact fun b hb => tiling.nonempty _ (List.mem_map_of_mem hb)
  · exact fun b hb => tiling.within _ (List.mem_map_of_mem hb)
  · intro i line item outside
    apply tiling.skip_of_outside item
    intro p hp
    obtain ⟨b, hb, rfl⟩ := List.mem_map.1 hp
    exact outside b hb
  · have none : head.filterMap Item.instruction? = [] :=
      List.filterMap_eq_nil_iff.2 fun item h => Item.instruction_of_isGap (gaps item h)
    rw [← Item.pieces_ofLines, cut, List.filterMap_append, none, List.nil_append, grouping.insts]
  · intro b hb
    obtain ⟨front, middle, back, same, lines, insts⟩ := grouping.stretch b hb
    have cut' : Item.ofLines body = (head ++ front) ++ middle ++ back := by
      rw [cut, same]
      simp only [List.append_assoc]
    rw [lines, ← Item.pieces_ofLines, Item.ofLines_stretch cut', insts]
  · intro b hb
    have slice := stretches.slice _ (List.mem_map_of_mem hb)
    apply Text.join_infix
    rw [← show _ = b.lines from slice]
    exact (List.take_prefix _ _).isInfix.trans (List.drop_suffix _ _).isInfix

end Function

namespace Module

/-- What becomes of a block when its instructions are located. -/
@[simp] theorem lines_locateBlock (m : Module) (b : Block) :
    (m.locateBlock b).lines = b.lines := rfl

@[simp] theorem first_locateBlock (m : Module) (b : Block) :
    (m.locateBlock b).first = b.first := rfl

@[simp] theorem blocks_locateFunction (m : Module) (f : Function) :
    (m.locateFunction f).blocks = f.blocks.map m.locateBlock := rfl

@[simp] theorem header_locateFunction (m : Module) (f : Function) :
    (m.locateFunction f).header = f.header := rfl

@[simp] theorem body_locateFunction (m : Module) (f : Function) :
    (m.locateFunction f).body = f.body := rfl

@[simp] theorem lines_locateFunction (m : Module) (f : Function) :
    (m.locateFunction f).lines = f.lines := rfl

@[simp] theorem text_locateFunction (m : Module) (f : Function) :
    (m.locateFunction f).text = f.text := rfl

theorem pieces_locateBlock (m : Module) (b : Block) :
    (m.locateBlock b).insts.flatMap (·.pieces) = b.insts.flatMap (·.pieces) := by
  unfold locateBlock
  rw [List.flatMap_map]
  rfl

/-- Locating the instructions of a function moves no line. -/
theorem accounted_locateFunction (m : Module) {f : Function} (h : f.Accounted) :
    (m.locateFunction f).Accounted where
  framed := h.framed
  blocks := by simpa [Function.comp_def] using h.blocks
  nonempty := by simpa using h.nonempty
  inside := by simpa using h.inside
  outside := by simpa using h.outside
  pieces := by
    rw [body_locateFunction, ← h.pieces, List.flatMap_assoc, List.flatMap_assoc]
    simp [List.flatMap_map, pieces_locateBlock]
  ownPieces := by simpa [pieces_locateBlock] using h.ownPieces
  text := by simpa [Block.text] using h.text

/-- The functions of a module are those of its definitions, with their instructions located. -/
theorem funcs_of_ofText {text name : Text} {m : Module} (h : ofText text name = .ok m) :
    ∃ (m' : Module) (fs : List Function), m.funcs = fs.map m'.locateFunction ∧ List.Forall₂
      (fun d f => Function.ofLines d.1 d.2.1 d.2.2 = .ok f)
      (Chunk.definitions (Chunk.ofLines text.lines)) fs := by
  unfold ofText at h
  cases read : (Chunk.ofLines text.lines).foldlM add { name, text } with
  | error e => rw [read] at h; cases h
  | ok m' =>
    rw [read] at h
    cases h
    obtain ⟨fs, same, forall₂⟩ := funcs_of_foldlM read
    exact ⟨m', fs, by simpa [resolved] using congrArg (List.map m'.locateFunction) same, forall₂⟩

/-- A function of a module was read from a definition of its text. -/
theorem exists_definition {text name : Text} {m : Module} (h : ofText text name = .ok m)
    {f : Function} (member : f ∈ m.funcs) :
    ∃ (m' : Module) (f' : Function) (header body : List Text) (closing : Text),
      f = m'.locateFunction f' ∧ Chunk.Framed header body closing ∧
      Function.ofLines header body closing = .ok f' := by
  obtain ⟨m', fs, funcs, read⟩ := funcs_of_ofText h
  rw [funcs] at member
  obtain ⟨f', inside, rfl⟩ := List.mem_map.1 member
  obtain ⟨i, hi, rfl⟩ := List.mem_iff_getElem.1 inside
  have hd := read.length_eq ▸ hi
  refine ⟨m', fs[i], _, _, _, rfl, ?_, (List.forall₂_iff_get.1 read).2 i hd hi⟩
  exact Chunk.framed_of_mem (Chunk.mem_definitions (List.get_mem _ ⟨i, hd⟩))

theorem lines_of_definitions {ds : List (List Text × List Text × Text)} {fs : List Function}
    (read : List.Forall₂ (fun d f => Function.ofLines d.1 d.2.1 d.2.2 = .ok f) ds fs) :
    ds.map (fun d => d.1 ++ d.2.1 ++ [d.2.2]) = fs.map Function.lines := by
  induction read with
  | nil => rfl
  | cons read _ ih =>
    obtain ⟨ident, rest, blocks, -, -, rfl⟩ := Function.of_ofLines read
    rw [List.map_cons, List.map_cons, ih]
    rfl

/-- The functions are stretches of the lines of the text. -/
theorem stretches_of_ofText {text name : Text} {m : Module} (h : ofText text name = .ok m) :
    ∃ places, places.map (·.2) = m.funcs.map Function.lines ∧ Stretches text.lines places := by
  obtain ⟨m', fs, funcs, read⟩ := funcs_of_ofText h
  obtain ⟨places, same, tiling⟩ := Chunk.tiling_definitions (Chunk.ofLines text.lines) 0
  rw [Chunk.flatMap_lines_ofLines] at tiling
  refine ⟨places, ?_, by simpa using @Tiling.stretches _ _ _ _ [] tiling []⟩
  rw [same, lines_of_definitions read, funcs, List.map_map]
  rfl

/-- The lines of a function are lines of the text. -/
theorem mem_lines_of_ofText {text name : Text} {m : Module} (h : ofText text name = .ok m)
    {f : Function} (member : f ∈ m.funcs) : ∀ line ∈ f.lines, line ∈ text.lines := by
  obtain ⟨places, same, stretches⟩ := stretches_of_ofText h
  have listed : f.lines ∈ places.map (·.2) := same ▸ List.mem_map_of_mem member
  obtain ⟨place, hp, lines⟩ := List.mem_map.1 listed
  intro line hl
  rw [← lines, ← stretches.slice place hp] at hl
  exact List.mem_of_mem_drop (List.mem_of_mem_take hl)

theorem accounted_of_ofText {text name : Text} {m : Module} (h : ofText text name = .ok m)
    {f : Function} (member : f ∈ m.funcs) : f.Accounted := by
  obtain ⟨m', f', header, body, closing, rfl, framed, read⟩ := exists_definition h member
  exact accounted_locateFunction m' (Function.accounted_of_ofLines framed read)

/-- The lines of an accepted text: each function is a stretch of them, the functions in order and
apart from each other, and the lines of each function are accounted for. -/
theorem lines_accounted {text name : Text} {m : Module} (h : ofText text name = .ok m) :
    (∃ places, places.map (·.2) = m.funcs.map Function.lines ∧ Stretches text.lines places) ∧
      ∀ f ∈ m.funcs, f.Accounted :=
  ⟨stretches_of_ofText h, fun _ member => accounted_of_ofText h member⟩

/-- A call whose parenthesis stays open takes the label below it as one of its own lines. -/
def openCall : Text :=
  "define void @f(i32) \x7b\n\n; note\n  call void @g(\nbb:\n  i32 0)\n  ret void\n\n\x7d\n"

theorem lines_accounted_open_call :
    ∃ m, ofText openCall = .ok m ∧
      (m.funcs.flatMap (·.blocks)).map (fun b => (b.first, b.lines.length)) = [(3, 4)] ∧
      (∃ places, places.map (·.2) = m.funcs.map Function.lines ∧
        Stretches openCall.lines places) ∧
      ∀ f ∈ m.funcs, f.Accounted := by
  refine ⟨_, by cbv, by cbv, ?_⟩
  exact @lines_accounted openCall "stdin" _ (by cbv)

end Module

end FlowReport.Assembly
