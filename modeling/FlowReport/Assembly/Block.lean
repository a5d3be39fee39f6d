import FlowReport.Assembly.Metadata

/-!
# Basic blocks

The body of a function is read in two passes. The first cuts its lines into items: marks that
open a block, instructions with the lines that continue them, and gaps, which are blank lines
and comments. Whether a line is one or another depends on the lines before it only through the
brackets that an instruction left open. The second pass names the blocks: a mark gives its own
name, and an instruction that follows a terminator, or nothing, opens a block under the next
free slot.
-/

namespace FlowReport.Assembly

/-- An instruction: its trimmed lines, its debug reference and the place that it leads to. -/
structure Instruction where
  pieces : List Text
  dbg : Option Text := none
  location : Option SourceLocation := none
  deriving DecidableEq, Repr

/-- The instruction on one line. -/
def Instruction.text (i : Instruction) : Text := Text.join [' '] i.pieces

/-- A basic block. It keeps its lines as the function wrote them and the number of the
function's lines before the first of them. -/
structure Block where
  name : Text
  first : Nat := 0
  lines : List Text
  insts : List Instruction := []
  deriving DecidableEq, Repr

namespace Block

/-- The text of a block. -/
def text (b : Block) : Text := Text.join ['\n'] b.lines

/-- The last instruction of a block. -/
def terminator? (b : Block) : Option Instruction := b.insts.getLast?

end Block

/-- The words that end a block. -/
def terminators : List Text :=
  ["ret", "br", "switch", "indirectbr", "invoke", "callbr", "resume", "catchswitch", "catchret",
    "cleanupret", "unreachable"]

/-- The characters of the words that name operations. -/
def isOpcodeChar (c : Char) : Bool := ('a' ≤ c ∧ c ≤ 'z') || c == '_'

/-- The rest of an instruction behind its result, if it has one. -/
def afterResult (s : Text) : Text :=
  let rest? : Option Text := do
    let r ← Text.dropPrefix? ['%'] s
    let (_, r) ← Ident.read? r
    let r ← Text.dropPrefix? ['='] (Text.dropBlank r)
    some (Text.dropBlank r)
  rest?.getD s

/-- The rest of a call behind a tail call marker, if an operation follows the marker. -/
def afterMarker (s : Text) : Text :=
  let behind (marker : Text) : Option Text := do
    let r ← Text.dropPrefix? marker s
    let r' := Text.dropBlank r
    if r'.length < r.length ∧ (r'.head?.any isOpcodeChar) then some r' else none
  ((behind "tail").orElse fun _ => (behind "musttail").orElse fun _ => behind "notail").getD s

/-- The operation of an instruction, empty if it names none. -/
def opcode (s : Text) : Text := (afterMarker (afterResult s)).takeWhile isOpcodeChar

/-- The instruction ends its block. -/
def isTerminator (s : Text) : Bool := opcode s ∈ terminators

/-- The digits of a numbered result. -/
def resultSlot? (s : Text) : Option Text := do
  let r ← Text.dropPrefix? ['%'] s
  match r.takeWhile isDecimal with
  | [] => none
  | digits =>
    if (Text.dropBlank (r.dropWhile isDecimal)).head? = some '=' then some digits else none

/-- The slot that a comment of the form `; <label>:4:` names. -/
def slotMark? (line : Text) : Option Text := do
  let r ← Text.dropPrefix? [';'] (Text.dropBlank line)
  let r ← Text.dropPrefix? "<label>:" (Text.dropBlank r)
  match r.takeWhile isDecimal with
  | [] => none
  | digits => some digits

/-- The identifier of a label line: an identifier, a colon and at most a comment. -/
def label? (line : Text) : Option Ident := do
  let (ident, r) ← Ident.read? (Text.dropBlank line)
  let r ← Text.dropPrefix? [':'] r
  match Text.dropBlank r with
  | [] => some ident
  | c :: _ => if c = ';' then some ident else none

/-- A part of a function's body. -/
inductive Item where
  | mark (name line : Text)
  | gap (line : Text)
  | inst (first : Text) (more : List Text)
  deriving DecidableEq, Repr

namespace Item

/-- The lines of an item. -/
def lines : Item → List Text
  | mark _ line => [line]
  | gap line => [line]
  | inst first more => first :: more

/-- The item is a gap. -/
def isGap : Item → Bool
  | gap _ => true
  | _ => false

/-- The instruction that an item holds. -/
def instruction? : Item → Option Instruction
  | inst first more =>
    let pieces := (first :: more).map Text.trim
    some { pieces, dbg := debugRef? (Text.join [' '] pieces) }
  | _ => none

/-- The mark or the gap that a line is; none if it starts an instruction. -/
def ofLine? (line : Text) : Option Item :=
  match slotMark? line with
  | some digits => some (mark digits line)
  | none =>
    let s := line.trim
    if s = [] ∨ s.head? = some ';' then some (gap line)
    else (label? line).map fun ident => mark ident.name line

/-- The balance that an instruction line adds. -/
def weight (line : Text) : Int := bracketBalance line.trim

/-- The items of a body. -/
def ofLines : List Text → List Item
  | [] => []
  | line :: rest =>
    match ofLine? line with
    | some item => item :: ofLines rest
    | none =>
      let more := takeOpen weight (weight line) rest
      inst line more.1 :: ofLines more.2
termination_by ls => ls.length
decreasing_by
  · simp
  · have := length_takeOpen_snd_le weight (weight line) rest
    simp only [List.length_cons]
    omega

end Item

/-- What is known between two items: the next free slot, and whether an instruction that comes
now opens a block. -/
structure Slots where
  next : Nat
  closed : Bool
  deriving DecidableEq, Repr

namespace Slots

/-- A block of this name has opened. A name of digits takes its slot. -/
def opened (s : Slots) (name : Text) : Except NumeralError Slots :=
  if name ≠ [] ∧ name.all isDigitLike then do
    let n ← Numeral.read name
    .ok ⟨max s.next (n + 1), false⟩
  else .ok ⟨s.next, false⟩

/-- An instruction with this text has been read. A numbered result takes its slot. -/
def passed (s : Slots) (text : Text) : Except NumeralError Slots :=
  match resultSlot? text with
  | some digits => do
    let n ← Numeral.read digits
    .ok ⟨max s.next (n + 1), isTerminator text⟩
  | none => .ok ⟨s.next, isTerminator text⟩

/-- The name of the block that an item opens, if it opens one, and the slots behind it. -/
def step (s : Slots) : Item → Except NumeralError (Option Text × Slots)
  | .gap _ => .ok (none, s)
  | .mark name _ => do .ok (some name, ← s.opened name)
  | .inst first more => do
    let text := Text.join [' '] ((first :: more).map Text.trim)
    if s.closed then
      let name ← Numeral.write s.next
      let s ← s.opened name
      .ok (some name, ← s.passed text)
    else .ok (none, ← s.passed text)

/-- Each item with the name of the block that it opens. -/
def openings (s : Slots) : List Item → Except NumeralError (List (Item × Option Text))
  | [] => .ok []
  | item :: rest => do
    let (name?, s) ← s.step item
    .ok ((item, name?) :: (← openings s rest))

end Slots

namespace Block

/-- The items up to the last one that is no gap. -/
def withoutGaps (items : List Item) : List Item := (items.reverse.dropWhile Item.isGap).reverse

/-- The block of the given items; the gaps at its end are not part of it. -/
def ofItems (name : Text) (first : Nat) (items : List Item) : Block :=
  { name, first
    lines := (withoutGaps items).flatMap Item.lines
    insts := items.filterMap Item.instruction? }

/-- The items before the first opening, and the blocks from there on; `first` lines of the
function stand before the first item. -/
def group : (first : Nat) → List (Item × Option Text) → List Item × List Block
  | _, [] => ([], [])
  | first, (item, name?) :: rest =>
    let (head, blocks) := group (first + item.lines.length) rest
    match name? with
    | none => (item :: head, blocks)
    | some name => ([], ofItems name first (item :: head) :: blocks)

/-- The blocks of a body whose first line has `first` lines of the function before it. Slots
count from `slot`. -/
def ofBody (slot first : Nat) (body : List Text) : Except NumeralError (List Block) := do
  let items ← Slots.openings ⟨slot, true⟩ (Item.ofLines body)
  .ok (group first items).2

end Block

end FlowReport.Assembly
