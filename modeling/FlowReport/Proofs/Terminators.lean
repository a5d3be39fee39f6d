import FlowReport.Proofs.ImplicitBlocks
import FlowReport.Proofs.RoundTrip

/-!
# Terminators on several lines

Functions as a compiler prints them: every block begins with its label and ends with its terminator.
An instruction goes on for as long as its brackets are open, so the table of a switch belongs to the
switch. The clause of an invoke stands on a line of its own behind brackets that are closed, so it
is read as an instruction of a further block, under the next free number, which may well be the
label of the block behind it. A `Listing` is what is printed, and `ReadAs` is what becomes of each
of its blocks.
-/

namespace FlowReport.Assembly

open Layout (Closes)

/-- The lines of an instruction: the first one starts an instruction, and the brackets close with the
last one and not before it. -/
def Bracketed (first : Text) (more : List Text) : Prop :=
  Item.ofLine? first = none ∧ Closes 0 (first :: more)

instance (first : Text) (more : List Text) : Decidable (Bracketed first more) :=
  inferInstanceAs (Decidable (_ ∧ _))

/-- A terminator to be printed: its brackets tell where it ends, or it is a call behind which a clause
stands on a line of its own. -/
inductive Terminator where
  | bracketed (first : Text) (more : List Text)
  | split (call clause : Text)
  deriving DecidableEq, Repr

namespace Terminator

/-- The lines of a terminator. -/
def lines : Terminator → List Text
  | bracketed first more => first :: more
  | split call clause => [call, clause]

/-- The items that a terminator is cut into. -/
def items : Terminator → List Item
  | bracketed first more => [.inst first more]
  | split call clause => [.inst call [], .inst clause []]

/-- The terminator is not split. -/
def IsWhole : Terminator → Prop
  | bracketed .. => True
  | split .. => False

instance : (t : Terminator) → Decidable t.IsWhole
  | bracketed .. => isTrue trivial
  | split .. => isFalse id

/-- The line of a clause names the label at which the call goes on. -/
def IsClause (line : Text) : Prop := "to label %".toList <+: line.trim

instance (line : Text) : Decidable (IsClause line) := inferInstanceAs (Decidable (_ <+: _))

/-- What a terminator heeds. A clause leaves no bracket open. -/
def Fits : Terminator → Prop
  | bracketed first more => Bracketed first more ∧ isTerminator (textOf (first :: more)) = true
  | split call clause => Bracketed call [] ∧ isTerminator (textOf [call]) = true ∧
      IsClause clause ∧ Item.weight clause ≤ 0

instance : (t : Terminator) → Decidable t.Fits
  | bracketed .. => inferInstanceAs (Decidable (_ ∧ _))
  | split .. => inferInstanceAs (Decidable (_ ∧ _ ∧ _ ∧ _))

end Terminator

/-- The item stands between the label and the terminator of a block: it is a gap, or an instruction
that ends no block. -/
def Item.Inner : Item → Prop
  | gap line => IsGap line
  | inst first more => Bracketed first more ∧ isTerminator (textOf (first :: more)) = false
  | mark .. => False

instance : (item : Item) → Decidable item.Inner
  | .gap line => inferInstanceAs (Decidable (IsGap line))
  | .inst .. => inferInstanceAs (Decidable (_ ∧ _))
  | .mark .. => inferInstanceAs (Decidable False)

/-- A block to be printed: gap lines in front of it, the line of its label, what stands below, and
its terminator. -/
structure PrintedBlock where
  before : List Text
  name : Text
  label : Text
  inner : List Item
  last : Terminator
  deriving DecidableEq, Repr

namespace PrintedBlock

/-- The lines of a block from its label on. -/
def lines (b : PrintedBlock) : List Text :=
  b.label :: (b.inner.flatMap Item.lines ++ b.last.lines)

/-- The items of a block. -/
def items (b : PrintedBlock) : List Item := .mark b.name b.label :: (b.inner ++ b.last.items)

/-- What a block heeds: the label gives its name, and nothing but the terminator ends it. -/
structure Fits (b : PrintedBlock) : Prop where
  before : ∀ line ∈ b.before, IsGap line
  label : Item.ofLine? b.label = some (.mark b.name b.label)
  inner : ∀ item ∈ b.inner, item.Inner
  last : b.last.Fits

instance (b : PrintedBlock) : Decidable b.Fits :=
  decidable_of_iff ((∀ line ∈ b.before, IsGap line) ∧
    Item.ofLine? b.label = some (.mark b.name b.label) ∧ (∀ item ∈ b.inner, item.Inner) ∧
    b.last.Fits)
    ⟨fun ⟨before, label, inner, last⟩ => ⟨before, label, inner, last⟩,
      fun ⟨before, label, inner, last⟩ => ⟨before, label, inner, last⟩⟩

end PrintedBlock

/-- The body of a function to be printed: its blocks, and gap lines at the end. -/
structure Listing where
  blocks : List PrintedBlock
  after : List Text
  deriving DecidableEq, Repr

namespace Listing

/-- The lines of a body. -/
def body (p : Listing) : List Text := p.blocks.flatMap (fun b => b.before ++ b.lines) ++ p.after

/-- The items of a body. -/
def items (p : Listing) : List Item :=
  p.blocks.flatMap (fun b => b.before.map .gap ++ b.items) ++ p.after.map .gap

/-- What a body heeds. -/
def Fits (p : Listing) : Prop := (∀ b ∈ p.blocks, b.Fits) ∧ ∀ line ∈ p.after, IsGap line

instance (p : Listing) : Decidable p.Fits := inferInstanceAs (Decidable (_ ∧ _))

/-- No terminator is split. -/
def Unsplit (p : Listing) : Prop := ∀ b ∈ p.blocks, b.last.IsWhole

instance (p : Listing) : Decidable p.Unsplit := inferInstanceAs (Decidable (∀ b ∈ _, _))

end Listing

/-! ## The items of a printed body -/

section Items

variable {first : Text} {more rest : List Text}

/-- An instruction takes its own lines. -/
theorem ofLines_bracketed (h : Bracketed first more) (rest : List Text) :
    Item.ofLines (first :: more ++ rest) = .inst first more :: Item.ofLines rest := by
  have taken := Layout.takeOpen_closes h.2 rest
  rw [Int.zero_add] at taken
  rw [List.cons_append, Item.ofLines_none h.1, taken]

theorem ofLines_inner {items : List Item} (inner : ∀ item ∈ items, item.Inner)
    (rest : List Text) :
    Item.ofLines (items.flatMap Item.lines ++ rest) = items ++ Item.ofLines rest := by
  induction items with
  | nil => rfl
  | cons item items ih =>
    obtain ⟨own, others⟩ := List.forall_mem_cons.1 inner
    rw [List.flatMap_cons, List.append_assoc, List.cons_append, ← ih others]
    cases item with
    | gap line => exact Item.ofLines_some (Item.ofLine?_gap own) _
    | inst first more => exact ofLines_bracketed own.1 _
    | mark => exact own.elim

/-- The line of a clause starts an instruction, which ends no block and has no numbered result. -/
theorem clause_facts {line : Text} (h : Terminator.IsClause line) :
    Item.ofLine? line = none ∧ isTerminator line.trim = false ∧ resultSlot? line.trim = none := by
  obtain ⟨behind, text⟩ := h
  obtain ⟨front, same⟩ : ∃ more, "to label %".toList ++ more = Text.dropBlank line :=
    (show "to label %".toList <+: line.trim from ⟨behind, text⟩).trans (List.rdropWhile_prefix _ _)
  have label : label? line = none := by
    unfold label?
    rw [← same]
    rfl
  have comment : line.trim.head? ≠ some ';' := by
    rw [← text]
    exact (by decide : some 't' ≠ some ';')
  have said : line.trim ≠ [] := by
    rw [← text]
    exact List.cons_ne_nil _ _
  refine ⟨?_, ?_, ?_⟩
  · rw [Item.ofLine?, slotMark?_eq_none comment]
    simp [said, comment, label]
  · rw [← text]
    rfl
  · rw [← text]
    rfl

theorem ofLines_last {t : Terminator} (h : t.Fits) (rest : List Text) :
    Item.ofLines (t.lines ++ rest) = t.items ++ Item.ofLines rest := by
  cases t with
  | bracketed first more => exact ofLines_bracketed h.1 rest
  | split call clause =>
    obtain ⟨bracketed, -, isClause, closed⟩ := h
    have alone : Closes 0 [clause] := by
      show 0 + Item.weight clause ≤ 0
      omega
    have second := @ofLines_bracketed clause [] ⟨(clause_facts isClause).1, alone⟩ rest
    show Item.ofLines ([call] ++ ([clause] ++ rest)) = _
    rw [ofLines_bracketed bracketed, second]
    rfl

theorem PrintedBlock.ofLines_lines {b : PrintedBlock} (h : b.Fits) (rest : List Text) :
    Item.ofLines (b.lines ++ rest) = b.items ++ Item.ofLines rest := by
  rw [lines, items, List.cons_append, Item.ofLines_some h.label, List.append_assoc,
    ofLines_inner h.inner, ofLines_last h.last, List.cons_append, List.append_assoc]

/-- A printed body is cut into its items. -/
theorem Listing.ofLines_body {p : Listing} (h : p.Fits) : Item.ofLines p.body = p.items := by
  obtain ⟨blocks, after⟩ := p
  obtain ⟨fits, gap⟩ := h
  induction blocks with
  | nil =>
    have items := Layout.ofLines_gaps gap []
    rw [List.append_nil, Item.ofLines_nil, List.append_nil] at items
    exact items
  | cons b blocks ih =>
    obtain ⟨own, others⟩ := List.forall_mem_cons.1 fits
    have tail := ih others gap
    simp only [Listing.body, Listing.items, List.flatMap_cons, List.append_assoc] at tail ⊢
    rw [Layout.ofLines_gaps own.before, PrintedBlock.ofLines_lines own, tail]

end Items

/-! ## Runs over a printed body -/

namespace Slots

variable {s s' : Slots} {p : List (Item × Option Text)}

/-- A run over two lists is one over the first and one over the second. -/
theorem Run.of_append {q : List (Item × Option Text)} (run : s.Run (p ++ q) s') :
    ∃ mid, s.Run p mid ∧ mid.Run q s' := by
  induction p generalizing s with
  | nil => exact ⟨s, .nil s, run⟩
  | cons pair p ih =>
    cases run with
    | cons head tail =>
      obtain ⟨mid, front, back⟩ := ih tail
      exact ⟨mid, .cons head front, back⟩

/-- An instruction of an open block opens none, and closes its block if it is a terminator. -/
theorem Step.of_unclosed {first : Text} {more : List Text} {name? : Option Text}
    (step : Step s (.inst first more) name? s') (unclosed : s.closed = false) :
    name? = none ∧ s'.closed = isTerminator (textOf (first :: more)) := by
  obtain ⟨i, -, text⟩ := Item.exists_instruction first more
  cases step with
  | first closed => rw [unclosed] at closed; cases closed
  | next _ passed =>
    rw [← text] at passed ⊢
    exact ⟨rfl, (passed_spec passed).1⟩

/-- An instruction behind a closed block opens one under a number. -/
theorem Step.of_closed {first : Text} {more : List Text} {name? : Option Text}
    (step : Step s (.inst first more) name? s') (closed : s.closed = true) :
    name? = some (Numeral.ofNat s.next) ∧ s'.closed = isTerminator (textOf (first :: more)) := by
  obtain ⟨i, -, text⟩ := Item.exists_instruction first more
  cases step with
  | first _ written _ passed =>
    rw [← text] at passed ⊢
    exact ⟨congrArg some (eq_of_write written), (passed_spec passed).1⟩
  | next unclosed => rw [closed] at unclosed; cases unclosed

/-- Gaps open nothing and change nothing. -/
theorem Run.of_gaps {gaps : List Text} (run : s.Run p s') (items : p.map (·.1) = gaps.map .gap) :
    p = (gaps.map Item.gap).map (fun item => (item, none)) ∧ s' = s := by
  induction gaps generalizing s p with
  | nil =>
    obtain rfl := List.map_eq_nil_iff.1 items
    cases run
    exact ⟨rfl, rfl⟩
  | cons line gaps ih =>
    obtain ⟨pair, p, rfl, first, rest⟩ := List.map_eq_cons_iff.1 items
    cases run with
    | cons head tail =>
      subst first
      cases head
      obtain ⟨same, rfl⟩ := ih tail rest
      exact ⟨by rw [same]; rfl, rfl⟩

/-- What stands inside of a block opens nothing and leaves it open. -/
theorem Run.of_inner {inner : List Item} (fits : ∀ item ∈ inner, item.Inner) (run : s.Run p s')
    (items : p.map (·.1) = inner) (unclosed : s.closed = false) :
    p = inner.map (fun item => (item, none)) ∧ s'.closed = false := by
  induction inner generalizing s p with
  | nil =>
    obtain rfl := List.map_eq_nil_iff.1 items
    cases run
    exact ⟨rfl, unclosed⟩
  | cons item inner ih =>
    obtain ⟨own, others⟩ := List.forall_mem_cons.1 fits
    obtain ⟨⟨item, name?⟩, p, rfl, rfl, rest⟩ := List.map_eq_cons_iff.1 items
    cases run with
    | @cons _ mid _ _ _ _ head tail =>
      obtain ⟨rfl, still⟩ : name? = none ∧ mid.closed = false := by
        cases item with
        | gap line =>
          cases head
          exact ⟨rfl, unclosed⟩
        | inst first more =>
          obtain ⟨none, closed⟩ := head.of_unclosed unclosed
          exact ⟨none, closed.trans own.2⟩
        | mark => exact own.elim
      obtain ⟨same, last⟩ := ih others tail rest still
      exact ⟨by rw [same]; rfl, last⟩

/-- A terminator closes the block; behind a split one its clause opens another. -/
theorem Run.of_last {t : Terminator} (fits : t.Fits) (run : s.Run p s')
    (items : p.map (·.1) = t.items) (unclosed : s.closed = false) :
    (∃ first more, t = .bracketed first more ∧ p = [(.inst first more, none)]) ∨
    ∃ call clause slot, t = .split call clause ∧
      p = [(.inst call [], none), (.inst clause [], some (Numeral.ofNat slot))] := by
  cases t with
  | bracketed first more =>
    obtain ⟨⟨item, name?⟩, p, rfl, rfl, rest⟩ := List.map_eq_cons_iff.1 items
    obtain rfl := List.map_eq_nil_iff.1 rest
    cases run with
    | cons head tail => exact .inl ⟨first, more, rfl, by rw [(head.of_unclosed unclosed).1]⟩
  | split call clause =>
    obtain ⟨⟨item, name?⟩, p, rfl, rfl, rest⟩ := List.map_eq_cons_iff.1 items
    obtain ⟨⟨item, name'?⟩, p, rfl, rfl, none⟩ := List.map_eq_cons_iff.1 rest
    obtain rfl := List.map_eq_nil_iff.1 none
    cases run with
    | @cons _ mid _ _ _ _ head tail =>
      obtain ⟨rfl, closed⟩ := head.of_unclosed unclosed
      cases tail with
      | cons second _ =>
        have opens := (second.of_closed (closed.trans fits.2.1)).1
        exact .inr ⟨call, clause, mid.next, rfl, by rw [opens]⟩

end Slots

/-! ## The blocks of a printed body -/

/-- The lines of the instruction that an item holds, trimmed. -/
def Item.pieces? : Item → Option (List Text)
  | inst first more => some ((first :: more).map Text.trim)
  | _ => none

/-- What a block shows: its name, its lines, and the lines of each instruction, trimmed. -/
structure Part where
  name : Text
  lines : List Text
  pieces : List (List Text)
  deriving DecidableEq, Repr

/-- What a block shows. -/
def Block.part (b : Block) : Part := ⟨b.name, b.lines, b.insts.map (·.pieces)⟩

/-- What a printed block shows. -/
def PrintedBlock.part (b : PrintedBlock) : Part :=
  ⟨b.name, b.lines, b.inner.filterMap Item.pieces? ++ [b.last.lines.map Text.trim]⟩

/-- What a printed block is read as. A block whose terminator is whole is one block; a split terminator
leaves its clause to a further block under a number. -/
inductive PrintedBlock.ReadAs (b : PrintedBlock) : List Part → Prop where
  | whole (last : b.last.IsWhole) : b.ReadAs [b.part]
  | split {call clause : Text} (slot : Nat) (last : b.last = .split call clause) :
      b.ReadAs [⟨b.name, b.label :: (b.inner.flatMap Item.lines ++ [call]),
          b.inner.filterMap Item.pieces? ++ [[call.trim]]⟩,
        ⟨Numeral.ofNat slot, [clause], [[clause.trim]]⟩]

namespace Block

theorem pieces_instructions (items : List Item) :
    (items.filterMap Item.instruction?).map (·.pieces) = items.filterMap Item.pieces? := by
  rw [List.map_filterMap]
  refine List.filterMap_congr fun item _ => ?_
  cases item <;> rfl

/-- A block shows what its items hold, without the gaps at its end. -/
theorem part_ofItems {front gaps : List Item} {first : Text} {more : List Text}
    (gap : ∀ item ∈ gaps, item.isGap = true) (name : Text) (pos : Nat) :
    (ofItems name pos (front ++ [.inst first more] ++ gaps)).part =
      ⟨name, front.flatMap Item.lines ++ first :: more,
        front.filterMap Item.pieces? ++ [(first :: more).map Text.trim]⟩ := by
  rw [Layout.ofItems_append_gaps rfl gap, part, pieces_instructions]
  simp [Item.pieces?]

end Block

namespace PrintedBlock

open Layout (openWith)

variable {b : PrintedBlock} {s s' : Slots} {p rest : List (Item × Option Text)}

/-- The items of a block from its label to an instruction behind what stands inside. -/
def upTo (b : PrintedBlock) (first : Text) (more : List Text) : List Item :=
  .mark b.name b.label :: b.inner ++ [.inst first more]

/-- A run over a printed block: the label opens it, and only a split terminator opens another. -/
theorem run_cases (fits : b.Fits) (run : s.Run p s')
    (items : p.map (·.1) = b.before.map .gap ++ b.items) :
    (∃ first more, b.last = .bracketed first more ∧
      p = (b.before.map Item.gap).map (fun item => (item, none)) ++
        openWith b.name (b.upTo first more)) ∨
    ∃ call clause slot, b.last = .split call clause ∧
      p = (b.before.map Item.gap).map (fun item => (item, none)) ++
        (openWith b.name (b.upTo call []) ++
          openWith (Numeral.ofNat slot) [.inst clause []]) := by
  obtain ⟨gaps, behind, rfl, before, own⟩ := List.map_eq_append_iff.1 items
  obtain ⟨⟨mark, name?⟩, below, rfl, rfl, content⟩ := List.map_eq_cons_iff.1 own
  obtain ⟨inner, last, rfl, inside, ending⟩ := List.map_eq_append_iff.1 content
  obtain ⟨mid, front, labelled⟩ := run.of_append
  obtain ⟨rfl, rfl⟩ := front.of_gaps before
  cases labelled with
  | cons head tail =>
    cases head with
    | mark _ opened =>
      obtain ⟨mid', body, close⟩ := tail.of_append
      obtain ⟨rfl, unclosed⟩ := body.of_inner fits.inner inside (Slots.opened_spec opened).1
      rcases close.of_last fits.last ending unclosed with
        ⟨first, more, same, rfl⟩ | ⟨call, clause, slot, same, rfl⟩
      · exact .inl ⟨first, more, same, by simp [upTo, openWith]⟩
      · exact .inr ⟨call, clause, slot, same, by simp [upTo, openWith]⟩

/-- The items of a printed block make the blocks that it is read as, whatever follows it. -/
theorem group_readAs (fits : b.Fits) (run : s.Run p s')
    (items : p.map (·.1) = b.before.map .gap ++ b.items)
    (gap : ∀ pos, ∀ item ∈ (Block.group pos rest).1, item.isGap = true) (pos : Nat) :
    (∀ item ∈ (Block.group pos (p ++ rest)).1, item.isGap = true) ∧
      ∃ parts behind, b.ReadAs parts ∧ (Block.group pos (p ++ rest)).2.map Block.part =
        parts ++ (Block.group behind rest).2.map Block.part := by
  have opens : ∀ first more, b.upTo first more ≠ [] := fun _ _ => List.cons_ne_nil _ _
  rcases run_cases fits run items with ⟨first, more, last, rfl⟩ | ⟨call, clause, slot, last, rfl⟩
  · rw [List.append_assoc, Layout.group_unopened, Layout.group_openWith (opens _ _)]
    have isWhole : b.last.IsWhole := by
      rw [last]
      trivial
    refine ⟨by simp [Item.isGap], _, ?behind, .whole isWhole, ?made⟩
    case made =>
      rw [List.map_cons, upTo, Block.part_ofItems (gap _)]
      simp only [PrintedBlock.part, lines, last, Terminator.lines]
      rfl
  · rw [List.append_assoc, Layout.group_unopened, List.append_assoc,
      Layout.group_openWith (opens _ _), Layout.group_openWith (List.cons_ne_nil _ _)]
    refine ⟨by simp [Item.isGap], _, ?later, .split slot last, ?parts⟩
    case parts =>
      have call := @Block.part_ofItems (.mark b.name b.label :: b.inner) [] call [] (by simp)
      have alone : ∀ first behind, (Block.ofItems (Numeral.ofNat slot) first
          ([.inst clause []] ++ (Block.group behind rest).1)).part =
            ⟨Numeral.ofNat slot, [clause], [[clause.trim]]⟩ :=
        fun _ behind => @Block.part_ofItems [] _ clause [] (gap behind) _ _
      rw [List.map_cons, List.map_cons, upTo, call, alone]
      rfl

end PrintedBlock

/-- The items of a printed body make the blocks that its printed blocks are read as. -/
theorem reads_group {bs : List PrintedBlock} {after : List Text} (fits : ∀ b ∈ bs, b.Fits)
    {s s' : Slots} {pairs : List (Item × Option Text)} (run : s.Run pairs s')
    (items : pairs.map (·.1) = Listing.items ⟨bs, after⟩) (pos : Nat) :
    (∀ item ∈ (Block.group pos pairs).1, item.isGap = true) ∧
      ∃ parts, List.Forall₂ PrintedBlock.ReadAs bs parts ∧
        (Block.group pos pairs).2.map Block.part = parts.flatten := by
  induction bs generalizing s pairs pos with
  | nil =>
    obtain ⟨rfl, -⟩ := run.of_gaps items
    have group := Layout.group_unopened (after.map Item.gap) [] pos
    rw [List.append_nil] at group
    rw [group]
    refine ⟨?_, [], .nil, rfl⟩
    simp [Block.group, Item.isGap]
  | cons b bs ih =>
    obtain ⟨own, others⟩ := List.forall_mem_cons.1 fits
    rw [Listing.items, List.flatMap_cons, List.append_assoc] at items
    obtain ⟨p, rest, rfl, block, tail⟩ := List.map_eq_append_iff.1 items
    obtain ⟨mid, front, back⟩ := run.of_append
    have gap := fun pos => (ih others back tail pos).1
    obtain ⟨gaps, part, behind, readAs, made⟩ := PrintedBlock.group_readAs own front block gap pos
    obtain ⟨-, parts, all, rest⟩ := ih others back tail behind
    exact ⟨gaps, part :: parts, .cons readAs all, by rw [made, rest, List.flatten_cons]⟩

namespace Function

/-- The blocks of the function are what the printed blocks are read as, one after the other. -/
def Reads (f : Function) (p : Listing) : Prop :=
  ∃ parts, List.Forall₂ PrintedBlock.ReadAs p.blocks parts ∧
    f.blocks.map Block.part = parts.flatten

/-- The function has one block for each printed one, in order and under its name, and the last
instruction of each has all lines of the terminator. -/
structure Whole (f : Function) (p : Listing) : Prop where
  names : f.blocks.map (·.name) = p.blocks.map (·.name)
  terminators : f.blocks.map (fun b => b.terminator?.map (·.pieces)) =
    p.blocks.map fun b => some (b.last.lines.map Text.trim)

/-- There are as many blocks as printed ones if and only if no terminator is split. -/
theorem unsplit_iff_length {bs : List PrintedBlock} {parts : List (List Part)}
    (reads : List.Forall₂ PrintedBlock.ReadAs bs parts) : bs.length ≤ parts.flatten.length ∧
      (parts.flatten.length = bs.length ↔ ∀ b ∈ bs, b.last.IsWhole) := by
  induction reads with
  | nil => simp
  | @cons b part bs parts own _ ih =>
    obtain ⟨least, same⟩ := ih
    rw [List.forall_mem_cons, ← same]
    cases own with
    | whole last =>
      simp only [last, true_and, List.flatten_cons, List.length_append, List.length_cons,
        List.length_nil]
      omega
    | split slot last =>
      simp only [last, Terminator.IsWhole, false_and, iff_false, List.flatten_cons,
        List.length_append, List.length_cons, List.length_nil]
      omega

/-- Whole terminators leave the blocks as they were printed. -/
theorem flatten_of_unsplit {bs : List PrintedBlock} {parts : List (List Part)}
    (reads : List.Forall₂ PrintedBlock.ReadAs bs parts) (unsplit : ∀ b ∈ bs, b.last.IsWhole) :
    parts.flatten = bs.map PrintedBlock.part := by
  induction reads with
  | nil => rfl
  | @cons b part bs parts own _ ih =>
    obtain ⟨whole, others⟩ := List.forall_mem_cons.1 unsplit
    cases own with
    | whole last => rw [List.flatten_cons, ih others, List.map_cons, List.singleton_append]
    | split slot last =>
      rw [last] at whole
      exact whole.elim

/-- The function keeps the blocks that were printed if and only if no terminator is split. -/
theorem whole_iff_of_reads {f : Function} {p : Listing} (h : f.Reads p) :
    f.Whole p ↔ p.Unsplit := by
  obtain ⟨parts, reads, made⟩ := h
  constructor
  · intro whole
    have count := congrArg List.length whole.names
    have count' := congrArg List.length made
    rw [List.length_map, List.length_map] at count
    rw [List.length_map] at count'
    exact (unsplit_iff_length reads).2.1 (by omega)
  · intro unsplit
    rw [flatten_of_unsplit reads unsplit] at made
    constructor
    · simpa [Function.comp_def, Block.part, PrintedBlock.part] using congrArg (List.map (·.name)) made
    · have last := congrArg (List.map (·.pieces.getLast?)) made
      simpa [Function.comp_def, Block.part, PrintedBlock.part, Block.terminator?] using last

end Function

/-! ## Which printed bodies are read -/

/-- The text is no number, or it is one that can be read: it has decimal digits only, and not too
many. -/
def Readable (s : Text) : Prop := s ≠ [] → s.all isDigitLike = true →
  s.all isDecimal = true ∧ s.length ≤ Numeral.digitLimit

instance (s : Text) : Decidable (Readable s) := inferInstanceAs (Decidable (_ → _ → _ ∧ _))

/-- The numbers that an item uses as slots can be read: the name of a mark, and the result of an
instruction. -/
def Item.Readable : Item → Prop
  | gap _ => True
  | mark name _ => Assembly.Readable name
  | inst first more => ∀ digits ∈ resultSlot? (textOf (first :: more)), Assembly.Readable digits

instance : (item : Item) → Decidable item.Readable
  | .gap _ => inferInstanceAs (Decidable True)
  | .mark name _ => inferInstanceAs (Decidable (Assembly.Readable name))
  | .inst .. => inferInstanceAs (Decidable (∀ digits ∈ _, _))

namespace Slots

theorem exists_read_iff {s : Text} : (∃ n, Numeral.read s = .ok n) ↔
    s.all isDecimal = true ∧ s.length ≤ Numeral.digitLimit := by
  unfold Numeral.read
  simp only
  constructor
  · rintro ⟨n, read⟩
    split at read
    · cases read
    split at read
    · rename_i short decimal
      rw [List.takeWhile_eq_self_iff.2 (List.all_eq_true.1 decimal)] at short
      exact ⟨decimal, by omega⟩
    · cases read
  · rintro ⟨decimal, short⟩
    rw [List.takeWhile_eq_self_iff.2 (List.all_eq_true.1 decimal), if_neg (by omega),
      if_pos decimal]
    exact ⟨_, rfl⟩

/-- A number can be read if it is readable. -/
theorem readable_iff {s : Text} (nonempty : s ≠ []) (digits : s.all isDigitLike = true) :
    Readable s ↔ ∃ n, Numeral.read s = .ok n := by
  rw [exists_read_iff]
  exact ⟨fun h => h nonempty digits, fun h _ _ => h⟩

/-- A block can be opened if its name can be read. -/
theorem exists_opened_iff {s : Slots} {name : Text} :
    (∃ t, s.opened name = .ok t) ↔ Readable name := by
  unfold opened
  by_cases number : name ≠ [] ∧ name.all isDigitLike = true
  · rw [if_pos number, readable_iff number.1 number.2]
    constructor
    · rintro ⟨t, opened⟩
      obtain ⟨n, read, -⟩ := bind_eq_ok.1 opened
      exact ⟨n, read⟩
    · rintro ⟨n, read⟩
      exact ⟨_, bind_eq_ok.2 ⟨n, read, rfl⟩⟩
  · rw [if_neg number]
    refine ⟨fun _ nonempty digits => ?_, fun _ => ⟨_, rfl⟩⟩
    exact absurd ⟨nonempty, digits⟩ number

/-- The digits of a result are decimal ones. -/
theorem digits_of_resultSlot? {s digits : Text} (found : resultSlot? s = some digits) :
    digits ≠ [] ∧ digits.all isDigitLike = true := by
  obtain ⟨r, -, found⟩ := Option.bind_eq_some_iff.1 found
  split at found
  · cases found
  · rename_i some
    split at found
    · obtain rfl := Option.some.inj found
      refine ⟨some, List.all_eq_true.2 fun c member => ?_⟩
      rw [isDigitLike, List.mem_takeWhile_imp member, Bool.true_or]
    · cases found

/-- An instruction can be passed if the number of its result can be read. -/
theorem exists_passed_iff {s : Slots} {text : Text} :
    (∃ t, s.passed text = .ok t) ↔ ∀ digits ∈ resultSlot? text, Readable digits := by
  unfold passed
  cases found : resultSlot? text with
  | none => simp
  | some digits =>
    obtain ⟨nonempty, number⟩ := digits_of_resultSlot? found
    simp only [Option.mem_some_iff, forall_eq', readable_iff nonempty number]
    constructor
    · rintro ⟨t, passed⟩
      obtain ⟨n, read, -⟩ := bind_eq_ok.1 passed
      exact ⟨n, read⟩
    · rintro ⟨n, read⟩
      exact ⟨_, bind_eq_ok.2 ⟨n, read, rfl⟩⟩

/-- What was read in a run can be read. -/
theorem Run.readable {s s' : Slots} {pairs : List (Item × Option Text)} (run : s.Run pairs s') :
    ∀ p ∈ pairs, p.1.Readable := by
  induction run with
  | nil => simp
  | cons head _ ih =>
    refine List.forall_mem_cons.2 ⟨?_, ih⟩
    cases head with
    | gap => trivial
    | mark _ opened => exact exists_opened_iff.1 ⟨_, opened⟩
    | first _ _ _ passed => exact exists_passed_iff.1 ⟨_, passed⟩
    | next _ passed => exact exists_passed_iff.1 ⟨_, passed⟩

/-- What can be read inside of a block is read. -/
theorem exists_run_inner {inner : List Item} (fits : ∀ item ∈ inner, item.Inner)
    (readable : ∀ item ∈ inner, item.Readable) {s : Slots} (unclosed : s.closed = false) :
    ∃ s', s.Run (inner.map fun item => (item, none)) s' ∧ s'.closed = false := by
  induction inner generalizing s with
  | nil => exact ⟨s, .nil s, unclosed⟩
  | cons item inner ih =>
    obtain ⟨own, others⟩ := List.forall_mem_cons.1 fits
    obtain ⟨numbers, further⟩ := List.forall_mem_cons.1 readable
    cases item with
    | gap line =>
      obtain ⟨s', run, last⟩ := ih others further unclosed
      exact ⟨s', .cons (.gap line) run, last⟩
    | inst first more =>
      obtain ⟨mid, passed⟩ := (@exists_passed_iff s _).2 numbers
      have step : s.Step (.inst first more) none mid := .next unclosed passed
      have still := (step.of_unclosed unclosed).2.trans own.2
      obtain ⟨s', run, last⟩ := ih others further still
      exact ⟨s', .cons step run, last⟩
    | mark => exact own.elim

end Slots

/-- A printed block with a whole terminator is read if its numbers can be read. -/
theorem PrintedBlock.exists_run {b : PrintedBlock} (fits : b.Fits) (whole : b.last.IsWhole)
    (readable : ∀ item ∈ b.items, item.Readable) (s : Slots) :
    ∃ p s', p.map (·.1) = b.before.map Item.gap ++ b.items ∧ s.Run p s' := by
  obtain ⟨name, content⟩ := List.forall_mem_cons.1 readable
  obtain ⟨inside, ending⟩ := List.forall_mem_append.1 content
  obtain ⟨t, opened⟩ := (@Slots.exists_opened_iff s b.name).2 name
  obtain ⟨mid, inner, unclosed⟩ :=
    Slots.exists_run_inner fits.inner inside (Slots.opened_spec opened).1
  cases last : b.last with
  | split call clause =>
    rw [last] at whole
    exact whole.elim
  | bracketed first more =>
    rw [last] at ending
    obtain ⟨s', passed⟩ := (@Slots.exists_passed_iff mid _).2 (ending _ List.mem_cons_self)
    refine ⟨_, s', ?_, Layout.run_append (Layout.run_gaps s b.before) (.cons (.mark b.label opened)
      (Layout.run_append inner (.cons (.next unclosed passed) (.nil s'))))⟩
    simp [items, last, Terminator.items, Function.comp_def]

/-- A printed body in which no terminator is split is read if its numbers can be read. -/
theorem Listing.exists_run {p : Listing} (fits : p.Fits) (unsplit : p.Unsplit)
    (readable : ∀ item ∈ p.items, item.Readable) (s : Slots) :
    ∃ pairs s', pairs.map (·.1) = p.items ∧ s.Run pairs s' := by
  obtain ⟨blocks, after⟩ := p
  obtain ⟨fits, -⟩ := fits
  induction blocks generalizing s with
  | nil =>
    refine ⟨_, s, ?_, Layout.run_gaps s after⟩
    simp [items, Function.comp_def]
  | cons b blocks ih =>
    obtain ⟨own, others⟩ := List.forall_mem_cons.1 fits
    obtain ⟨whole, wholes⟩ := List.forall_mem_cons.1 unsplit
    rw [Listing.items, List.flatMap_cons, List.append_assoc] at readable
    obtain ⟨front, back⟩ := List.forall_mem_append.1 readable
    obtain ⟨p, mid, same, run⟩ :=
      PrintedBlock.exists_run own whole (List.forall_mem_append.1 front).2 s
    obtain ⟨q, s', rest, tail⟩ := ih mid wholes back others
    refine ⟨p ++ q, s', ?_, Layout.run_append run tail⟩
    rw [List.map_append, same, rest]
    simp [items]

namespace Function

/-- A function whose body was printed has the blocks that the printed ones are read as. -/
theorem reads_of_ofLines {header body : List Text} {closing : Text} {f : Function} {p : Listing}
    (fits : p.Fits) (read : ofLines header body closing = .ok f) (printed : body = p.body) :
    f.Reads p := by
  obtain ⟨pairs, s', items, run, -, -, blocks⟩ := exists_run read
  rw [printed, Listing.ofLines_body fits] at items
  obtain ⟨-, parts, reads, made⟩ := reads_group fits.1 run items header.length
  exact ⟨parts, reads, by rw [blocks, made]⟩

/-- A function with a name is read if its body is. -/
theorem exists_ofLines {header body : List Text} {pairs : List (Item × Option Text)} {s' : Slots}
    (named : (callee? (headerText header)).isSome) (items : pairs.map (·.1) = Item.ofLines body)
    (run : Slots.Run ⟨parameterSlots header, true⟩ pairs s') (closing : Text) :
    ∃ f, ofLines header body closing = .ok f := by
  obtain ⟨⟨ident, rest⟩, callee⟩ := Option.isSome_iff_exists.1 named
  have opened := Slots.openings_iff.2 ⟨items, s', run⟩
  rw [parameterSlots, callee] at opened
  have blocks : Block.ofBody (slotCount (parameters rest)) header.length body =
      .ok (Block.group header.length pairs).2 := bind_eq_ok.2 ⟨pairs, opened, rfl⟩
  unfold ofLines
  simp only [callee, blocks]
  exact ⟨_, rfl⟩

/-- All numbers of a printed body that was read can be read. -/
theorem readable_of_ofLines {header : List Text} {closing : Text} {f : Function} {p : Listing}
    (fits : p.Fits) (read : ofLines header p.body closing = .ok f) :
    ∀ item ∈ p.items, item.Readable := by
  obtain ⟨pairs, s', items, run, -⟩ := exists_run read
  rw [Listing.ofLines_body fits] at items
  rw [← items]
  intro item member
  obtain ⟨pair, there, rfl⟩ := List.mem_map.1 member
  exact run.readable pair there

/-- A printed function in which no terminator is split is read if its numbers can be read. -/
theorem exists_ofLines_of_unsplit {header : List Text} {p : Listing} (fits : p.Fits)
    (named : (callee? (headerText header)).isSome) (unsplit : p.Unsplit)
    (readable : ∀ item ∈ p.items, item.Readable) (closing : Text) :
    ∃ f, ofLines header p.body closing = .ok f := by
  obtain ⟨pairs, s', items, run⟩ :=
    Listing.exists_run fits unsplit readable ⟨parameterSlots header, true⟩
  rw [← Listing.ofLines_body fits] at items
  exact exists_ofLines named items run closing

end Function

/-- The chunk can be put into a module: the end did not stop it, and its function is read. -/
def Chunk.IsRead : Chunk → Prop
  | define header body closing => ∃ f, Function.ofLines header body closing = .ok f
  | openHeader _ => False
  | openBody _ => False
  | _ => True

theorem Chunk.mem_definitions_of_mem {chunks : List Chunk} {header body : List Text} {closing : Text}
    (member : define header body closing ∈ chunks) : (header, body, closing) ∈ definitions chunks := by
  induction chunks with
  | nil => cases member
  | cons chunk chunks ih =>
    rcases List.mem_cons.1 member with rfl | later
    · exact List.mem_cons_self
    · cases chunk with
      | define => exact List.mem_cons_of_mem _ (ih later)
      | _ => exact ih later

namespace Module

theorem exists_add_iff {m : Module} {chunk : Chunk} : (∃ m', m.add chunk = .ok m') ↔ chunk.IsRead := by
  cases chunk with
  | define header body closing =>
    constructor
    · rintro ⟨m', added⟩
      obtain ⟨f, read, -⟩ := add_define added
      exact ⟨f, read⟩
    · rintro ⟨f, read⟩
      exact ⟨{ m with funcs := m.funcs ++ [f] }, by rw [add, read]; rfl⟩
  | openHeader => exact ⟨by rintro ⟨_, ⟨⟩⟩, False.elim⟩
  | openBody => exact ⟨by rintro ⟨_, ⟨⟩⟩, False.elim⟩
  | _ => exact ⟨fun _ => trivial, fun _ => ⟨_, rfl⟩⟩

/-- Chunks can be put into a module if each of them can. -/
theorem exists_foldlM_iff {m : Module} {chunks : List Chunk} :
    (∃ m', chunks.foldlM add m = .ok m') ↔ ∀ chunk ∈ chunks, chunk.IsRead := by
  induction chunks generalizing m with
  | nil => exact ⟨by simp, fun _ => ⟨m, rfl⟩⟩
  | cons chunk chunks ih =>
    rw [List.forall_mem_cons, ← @exists_add_iff m]
    constructor
    · rintro ⟨m', read⟩
      rw [List.foldlM_cons] at read
      obtain ⟨mid, added, read⟩ := bind_eq_ok.1 read
      exact ⟨⟨mid, added⟩, ih.1 ⟨m', read⟩⟩
    · rintro ⟨⟨mid, added⟩, others⟩
      obtain ⟨m', read⟩ := (@ih mid).2 others
      exact ⟨m', by rw [List.foldlM_cons]; exact bind_eq_ok.2 ⟨mid, added, read⟩⟩

/-- A text is read if and only if all its chunks are. -/
theorem exists_ofText_iff {text name : Text} : (∃ m, ofText text name = .ok m) ↔
    ∀ chunk ∈ Chunk.ofLines text.lines, chunk.IsRead := by
  rw [← @exists_foldlM_iff { name, text }]
  simp [ofText, map_eq_ok]

/-- A block shows the same when its instructions are located. -/
@[simp] theorem part_locateBlock (m : Module) (b : Block) : (m.locateBlock b).part = b.part := by
  simp only [Block.part, locateBlock, List.map_map]
  rfl

theorem reads_locateFunction (m : Module) {f : Function} {p : Listing} (h : f.Reads p) :
    (m.locateFunction f).Reads p := by
  obtain ⟨parts, reads, made⟩ := h
  refine ⟨parts, reads, ?_⟩
  rw [← made, blocks_locateFunction, List.map_map]
  exact List.map_congr_left fun b _ => part_locateBlock m b

/-- A definition in a text that was read is one of the functions. -/
theorem exists_func {text name : Text} {m : Module} (h : ofText text name = .ok m)
    {header body : List Text} {closing : Text}
    (member : .define header body closing ∈ Chunk.ofLines text.lines) :
    ∃ (m' : Module) (f : Function), Function.ofLines header body closing = .ok f ∧
      m'.locateFunction f ∈ m.funcs := by
  obtain ⟨m', fs, funcs, read⟩ := funcs_of_ofText h
  obtain ⟨i, hi, same⟩ := List.mem_iff_getElem.1 (Chunk.mem_definitions_of_mem member)
  have hf : i < fs.length := read.length_eq ▸ hi
  have own := (List.forall₂_iff_get.1 read).2 i hi hf
  rw [List.get_eq_getElem, same] at own
  exact ⟨m', fs[i], own, by rw [funcs]; exact List.mem_map_of_mem (List.getElem_mem hf)⟩

/-- **Terminators that are not split stay whole.** In a text whose other parts are read, a function
with a printed body is read with one block for each label line, in order and under its name, and with
each terminator as one instruction, the last of its block, that has all lines of the terminator, if
and only if no clause stands on a line of its own and all numbers can be read. In every text that was
read, the printed blocks of such a function are read as they are, but for those with a split
terminator, which lose the clause to a further block under a number. -/
theorem terminators_whole_iff {p : Listing} (fits : p.Fits) :
    (∀ text name header closing, .define header p.body closing ∈ Chunk.ofLines text.lines →
      (∀ chunk ∈ Chunk.ofLines text.lines,
        chunk = .define header p.body closing ∨ chunk.IsRead) →
      (Function.callee? (Function.headerText header)).isSome = true →
      ((∃ m, ofText text name = .ok m ∧
          ∃ f ∈ m.funcs, f.header = header ∧ f.body = p.body ∧ f.Whole p) ↔
        p.Unsplit ∧ ∀ item ∈ p.items, item.Readable)) ∧
    ∀ text name m, ofText text name = .ok m → ∀ f ∈ m.funcs, f.body = p.body →
      f.Reads p ∧ (f.Whole p ↔ p.Unsplit) := by
  have accepted : ∀ text name m, ofText text name = .ok m → ∀ f ∈ m.funcs, f.body = p.body →
      f.Reads p ∧ (f.Whole p ↔ p.Unsplit) := by
    intro text name m read f member body
    obtain ⟨m', f', header, own, closing, rfl, -, read⟩ := exists_definition read member
    obtain ⟨-, -, -, -, -, same, -⟩ := Function.exists_run read
    have reads := reads_locateFunction m' (Function.reads_of_ofLines fits read (same.symm.trans body))
    exact ⟨reads, Function.whole_iff_of_reads reads⟩
  refine ⟨?_, accepted⟩
  intro text name header closing member others named
  constructor
  · rintro ⟨m, read, f, own, -, body, whole⟩
    refine ⟨(accepted text name m read f own body).2.1 whole, ?_⟩
    obtain ⟨f', read'⟩ := exists_ofText_iff.1 ⟨m, read⟩ _ member
    exact Function.readable_of_ofLines fits read'
  · rintro ⟨unsplit, readable⟩
    have all : ∀ chunk ∈ Chunk.ofLines text.lines, chunk.IsRead := by
      intro chunk there
      rcases others chunk there with rfl | isRead
      · exact Function.exists_ofLines_of_unsplit fits named unsplit readable closing
      · exact isRead
    obtain ⟨m, parsed⟩ := (@exists_ofText_iff text name).2 all
    obtain ⟨m', f', read', there⟩ := exists_func parsed member
    obtain ⟨-, -, -, -, header', body', -⟩ := Function.exists_run read'
    exact ⟨m, parsed, _, there, header', body',
      (accepted text name m parsed _ there body').2.2 unsplit⟩

/-- A function with the table of a switch and the header of its text. -/
def tableHeader : Text := "define i32 @f(i32 %x) \x7b"

/-- The body of that function. -/
def table : Listing :=
  ⟨[⟨[], "entry", "entry:", [.inst "  %0 = add i32 %x, 1" []],
      .bracketed "  switch i32 %0, label %2 [" ["    i32 0, label %1", "  ]"]⟩,
    ⟨[[]], "1", "1:", [.gap "  ; zero"], .bracketed "  ret i32 1" []⟩,
    ⟨[[]], "2", "2:   ; preds = %entry", [], .bracketed "  ret i32 0" []⟩], []⟩

/-- The text of that function. -/
def tableText : Text :=
  "define i32 @f(i32 %x) \x7b\nentry:\n  %0 = add i32 %x, 1\n  switch i32 %0, label %2 [\n" ++
    "    i32 0, label %1\n  ]\n\n1:\n  ; zero\n  ret i32 1\n\n2:   ; preds = %entry\n" ++
    "  ret i32 0\n\x7d\n"

theorem terminators_whole_iff_table : table.Fits ∧
    ∃ m, ofText tableText = .ok m ∧
      ∃ f ∈ m.funcs, f.header = [tableHeader] ∧ f.body = table.body ∧ f.Whole table := by
  have fits : table.Fits := by decide +kernel
  have chunks : Chunk.ofLines tableText.lines = [.define [tableHeader] table.body "\x7d"] := by
    decide +kernel
  refine ⟨fits, ((terminators_whole_iff fits).1 tableText _ [tableHeader] "\x7d" ?_ ?_ ?_).2
    ⟨by decide +kernel, by decide +kernel⟩⟩
  · rw [chunks]
    exact List.mem_cons_self
  · intro chunk member
    rw [chunks] at member
    exact .inl (List.mem_singleton.1 member)
  · decide +kernel

/-- The body of a function with a call whose clause stands on a line of its own. -/
def cleanup : Listing :=
  ⟨[⟨[], "entry", "entry:", [],
      .split "  invoke void @g()" "          to label %0 unwind label %1"⟩,
    ⟨[[]], "0", "0:", [], .bracketed "  ret void" []⟩,
    ⟨[[]], "1", "1:",
      [.inst "  %2 = landingpad \x7b ptr, i32 \x7d" [], .inst "          cleanup" []],
      .bracketed "  resume \x7b ptr, i32 \x7d %2" []⟩], []⟩

/-- The text of that function. -/
def cleanupText : Text :=
  "define void @f() personality ptr @p \x7b\nentry:\n  invoke void @g()\n" ++
    "          to label %0 unwind label %1\n\n0:\n  ret void\n\n1:\n" ++
    "  %2 = landingpad \x7b ptr, i32 \x7d\n          cleanup\n  resume \x7b ptr, i32 \x7d %2\n\x7d\n"

/-- What is read of it: the clause is the whole of a fourth block, under the name of the printed
block behind it. -/
def cleanupParts : List Part :=
  [⟨"entry", ["entry:", "  invoke void @g()"], [["invoke void @g()"]]⟩,
    ⟨"0", ["          to label %0 unwind label %1"], [["to label %0 unwind label %1"]]⟩,
    ⟨"0", ["0:", "  ret void"], [["ret void"]]⟩,
    ⟨"1", ["1:", "  %2 = landingpad \x7b ptr, i32 \x7d", "          cleanup",
        "  resume \x7b ptr, i32 \x7d %2"],
      [["%2 = landingpad \x7b ptr, i32 \x7d"], ["cleanup"], ["resume \x7b ptr, i32 \x7d %2"]]⟩]

theorem terminators_not_whole : cleanup.Fits ∧
    ∃ m f, ofText cleanupText = .ok m ∧ f ∈ m.funcs ∧ f.body = cleanup.body ∧
      f.blocks.map Block.part = cleanupParts ∧
      (f.block? "0").map Block.part = cleanupParts[1]? ∧ ¬ f.Whole cleanup := by
  have printed : (ofText cleanupText).map (·.funcs.map fun f => (f.body, f.blocks.map Block.part)) =
      .ok [(cleanup.body, cleanupParts)] := by
    decide +kernel
  obtain ⟨m, read, shown⟩ := map_eq_ok.1 printed
  obtain ⟨f, one, same⟩ := List.map_eq_singleton_iff.1 shown
  obtain ⟨body, parts⟩ := Prod.mk.inj same
  refine ⟨by decide +kernel, m, f, read, one ▸ List.mem_cons_self, body, parts, ?_, ?_⟩
  · have first : cleanupParts.find? (·.name = ['0']) = cleanupParts[1]? := by decide +kernel
    rw [← first, ← parts, List.find?_map]
    rfl
  · intro whole
    have names := congrArg (List.map (·.name)) parts
    rw [List.map_map] at names
    exact absurd (names.symm.trans whole.names) (by decide +kernel)

end Module

end FlowReport.Assembly
