import FlowReport.Proofs.Items
import FlowReport.Proofs.Numerals
import FlowReport.Proofs.Scan

/-!
# Printed bodies

A body as a printer writes it. Blocks are printed in order, each behind any number of gap lines:
its label in one of two forms, or no label at all, and its instructions with any number of gap
lines in front of each. Slots count through the body as they do in the language: one for each
block without a name and one for each result without a name. `body` prints and `blocks` says what
is to be read; `Fits` says what a printer must heed to be understood.
-/

namespace FlowReport.Assembly.Layout

/-- An instruction to be printed on one line or several. A numbered one has its result in front
of the operation. -/
inductive Inst where
  | plain (first : Text) (more : List Text)
  | numbered (indent operation : Text) (more : List Text)
  deriving DecidableEq, Repr

namespace Inst

/-- The first line of an instruction, where `n` is the next free slot. -/
def first (n : Nat) : Inst → Text
  | plain first _ => first
  | numbered indent operation _ =>
    indent ++ '%' :: (Numeral.ofNat n ++ ' ' :: '=' :: ' ' :: operation)

/-- The further lines of an instruction. -/
def more : Inst → List Text
  | plain _ more => more
  | numbered _ _ more => more

/-- The lines of an instruction. -/
def lines (n : Nat) (i : Inst) : List Text := i.first n :: i.more

/-- The next free slot behind an instruction. -/
def next (n : Nat) : Inst → Nat
  | plain .. => n
  | numbered .. => n + 1

/-- The instruction that is to be read. -/
def read (n : Nat) (i : Inst) : Instruction where
  pieces := (i.lines n).map Text.trim
  dbg := debugRef? (Text.join [' '] ((i.lines n).map Text.trim))

end Inst

/-- The brackets close with the last of the lines and not before it. -/
def Closes : (balance : Int) → List Text → Prop
  | _, [] => False
  | balance, [line] => balance + Item.weight line ≤ 0
  | balance, line :: next :: rest =>
    0 < balance + Item.weight line ∧ Closes (balance + Item.weight line) (next :: rest)

instance decidableCloses : (balance : Int) → (ls : List Text) → Decidable (Closes balance ls)
  | _, [] => inferInstanceAs (Decidable False)
  | balance, [line] => inferInstanceAs (Decidable (balance + Item.weight line ≤ 0))
  | balance, line :: next :: rest =>
    have := decidableCloses (balance + Item.weight line) (next :: rest)
    inferInstanceAs (Decidable (_ ∧ Closes _ (next :: rest)))

namespace Inst

/-- The first line can be told from labels and gaps, and an instruction that is not numbered does
not look so. -/
def Starts : Inst → Prop
  | plain first more => first.trim ≠ [] ∧ first.trim.head? ≠ some ';' ∧ label? first = none ∧
      resultSlot? (Text.join [' '] ((first :: more).map Text.trim)) = none
  | numbered indent _ _ => ∀ c ∈ indent, isBlank c = true

instance : (i : Inst) → Decidable i.Starts
  | plain .. => inferInstanceAs (Decidable (_ ∧ _ ∧ _ ∧ _))
  -- through the text and not through all characters
  | numbered indent _ _ => List.decidableBAll (isBlank · = true) indent

/-- What an instruction heeds: it starts as one, the brackets close with the last line and not
before it, and no line looks like the end of the body. -/
structure Fits (n : Nat) (i : Inst) : Prop where
  starts : i.Starts
  closes : Closes 0 (i.lines n)
  inner : ∀ line ∈ i.lines n, Chunk.closesBody line = false

instance (n : Nat) (i : Inst) : Decidable (i.Fits n) :=
  decidable_of_iff
    (i.Starts ∧ Closes 0 (i.lines n) ∧ ∀ line ∈ i.lines n, Chunk.closesBody line = false)
    ⟨fun ⟨starts, closes, inner⟩ => ⟨starts, closes, inner⟩,
      fun ⟨starts, closes, inner⟩ => ⟨starts, closes, inner⟩⟩

end Inst

/-- The label of a block: its name, its slot, or its slot in a comment, between blanks and what
else may stand on the line. -/
inductive Label where
  | named (indent name after : Text)
  | numbered (indent after : Text)
  | commented (indent after : Text)
  deriving DecidableEq, Repr

namespace Label

/-- The line of a label. -/
def line (n : Nat) : Label → Text
  | named indent name after => indent ++ (name ++ ':' :: after)
  | numbered indent after => indent ++ (Numeral.ofNat n ++ ':' :: after)
  | commented indent after => indent ++ ("; <label>:".toList ++ (Numeral.ofNat n ++ ':' :: after))

/-- The name that a label gives. -/
def name (n : Nat) : Label → Text
  | named _ name _ => name
  | _ => Numeral.ofNat n

/-- The next free slot behind a label. -/
def next (n : Nat) : Label → Nat
  | named .. => n
  | _ => n + 1

/-- What may stand behind a label: blanks, and a comment. -/
def Ends (after : Text) : Prop :=
  Text.dropBlank after = [] ∨ (Text.dropBlank after).head? = some ';'

instance (after : Text) : Decidable (Ends after) := inferInstanceAs (Decidable (_ ∨ _))

/-- What a label heeds: a name is a bare identifier with more than digits. -/
def Fits : Label → Prop
  | named indent name after => (∀ c ∈ indent, isBlank c = true) ∧ (∀ c ∈ name, isBare c = true) ∧
      (∃ c ∈ name, ¬ c.isDigit) ∧ Ends after
  | numbered indent after => (∀ c ∈ indent, isBlank c = true) ∧ Ends after
  | commented indent _ => ∀ c ∈ indent, isBlank c = true

instance : (l : Label) → Decidable l.Fits
  | named indent name _ =>
    have : Decidable (∀ c ∈ indent, isBlank c = true) := List.decidableBAll _ indent
    have : Decidable (∀ c ∈ name, isBare c = true) := List.decidableBAll _ name
    have : Decidable (∃ c ∈ name, ¬ c.isDigit) := List.decidableBEx _ name
    inferInstanceAs (Decidable (_ ∧ _ ∧ _ ∧ _))
  | numbered indent _ =>
    have : Decidable (∀ c ∈ indent, isBlank c = true) := List.decidableBAll _ indent
    inferInstanceAs (Decidable (_ ∧ _))
  | commented indent _ => List.decidableBAll (isBlank · = true) indent

end Label

/-- A block to be printed: gap lines in front of it, its label if it is to have one, and its
instructions, each with gap lines in front. -/
structure Block where
  before : List Text
  label? : Option Label
  insts : List (List Text × Inst)
  deriving DecidableEq, Repr

/-- The lines of instructions and of the gaps in front of them. -/
def instLines : (n : Nat) → List (List Text × Inst) → List Text
  | _, [] => []
  | n, (gaps, i) :: rest => gaps ++ i.lines n ++ instLines (i.next n) rest

/-- The instructions that are to be read. -/
def instructions : (n : Nat) → List (List Text × Inst) → List Instruction
  | _, [] => []
  | n, (_, i) :: rest => i.read n :: instructions (i.next n) rest

/-- The next free slot behind instructions. -/
def behind : (n : Nat) → List (List Text × Inst) → Nat
  | n, [] => n
  | n, (_, i) :: rest => behind (i.next n) rest

/-- What the instructions of a block heed: each one fits, only gaps stand between them, and the
last one and no other ends the block. -/
inductive Ending : (n : Nat) → List (List Text × Inst) → Prop where
  | last {n gaps i} (gap : ∀ line ∈ gaps, IsGap line) (fits : i.Fits n)
      (ends : isTerminator (i.read n).text = true) : Ending n [(gaps, i)]
  | cons {n gaps i rest} (gap : ∀ line ∈ gaps, IsGap line) (fits : i.Fits n)
      (goes : isTerminator (i.read n).text = false) (tail : Ending (i.next n) rest) :
      Ending n ((gaps, i) :: rest)

instance decidableEnding : (n : Nat) → (insts : List (List Text × Inst)) →
    Decidable (Ending n insts)
  | _, [] => isFalse fun h => nomatch h
  | n, (gaps, i) :: rest =>
    have := decidableEnding (i.next n) rest
    decidable_of_iff
      ((∀ line ∈ gaps, IsGap line) ∧ i.Fits n ∧
        if isTerminator (i.read n).text = true then rest = [] else Ending (i.next n) rest)
      (by
        constructor
        · rintro ⟨gap, fits, h⟩
          split at h
          · rename_i ends
            exact h ▸ .last gap fits ends
          · rename_i goes
            exact .cons gap fits (by simpa using goes) h
        · rintro (⟨gap, fits, ends⟩ | ⟨gap, fits, goes, tail⟩)
          · exact ⟨gap, fits, by rw [if_pos ends]⟩
          · exact ⟨gap, fits, by simpa [goes] using tail⟩)

namespace Block

/-- The name of a block, where `n` is the next free slot. -/
def name (n : Nat) (b : Block) : Text := (b.label?.map (Label.name n)).getD (Numeral.ofNat n)

/-- The next free slot behind the opening of a block. A block without a name takes one. -/
def opened (n : Nat) (b : Block) : Nat := (b.label?.map (Label.next n)).getD (n + 1)

/-- The next free slot behind a block. -/
def next (n : Nat) (b : Block) : Nat := behind (b.opened n) b.insts

/-- The lines of a block. -/
def lines (n : Nat) (b : Block) : List Text :=
  (b.label?.map (Label.line n)).toList ++ instLines (b.opened n) b.insts

end Block

/-- The lines of blocks and of the gaps in front of them. -/
def body : (n : Nat) → List Block → List Text
  | _, [] => []
  | n, b :: rest => b.before ++ b.lines n ++ body (b.next n) rest

/-- The blocks that are to be read; the function has `pos` lines before the body. -/
def blocks : (n pos : Nat) → List Block → List Assembly.Block
  | _, _, [] => []
  | n, pos, b :: rest =>
    { name := b.name n, first := pos + b.before.length, lines := b.lines n,
      insts := instructions (b.opened n) b.insts } ::
      blocks (b.next n) (pos + (b.before ++ b.lines n).length) rest

/-- The next free slot behind a body. -/
def final : (n : Nat) → List Block → Nat
  | n, [] => n
  | n, b :: rest => final (b.next n) rest

/-- What a body heeds. A block without a label begins with its first instruction, so the gaps in
front of this are those in front of the block. -/
inductive Fits : (n : Nat) → List Block → Prop where
  | nil (n : Nat) : Fits n []
  | cons {n b rest} (gap : ∀ line ∈ b.before, IsGap line) (label : ∀ l ∈ b.label?, l.Fits)
      (tight : b.label? = none → ∀ p ∈ b.insts.head?, p.1 = [])
      (ending : Ending (b.opened n) b.insts) (tail : Fits (b.next n) rest) : Fits n (b :: rest)

instance decidableFits : (n : Nat) → (bs : List Block) → Decidable (Fits n bs)
  | n, [] => isTrue (.nil n)
  | n, b :: rest =>
    have := decidableFits (b.next n) rest
    decidable_of_iff
      ((∀ line ∈ b.before, IsGap line) ∧ (∀ l ∈ b.label?, l.Fits) ∧
        (b.label? = none → ∀ p ∈ b.insts.head?, p.1 = []) ∧ Ending (b.opened n) b.insts ∧
        Fits (b.next n) rest)
      ⟨fun ⟨gap, label, tight, ending, tail⟩ => .cons gap label tight ending tail,
        fun | .cons gap label tight ending tail => ⟨gap, label, tight, ending, tail⟩⟩

end FlowReport.Assembly.Layout
