import FlowReport.Text.Wide

/-!
# UTF-8

Texts as bytes and back. A reader meets a fault where no character can be read: a byte that
starts none, a byte that should continue one and does not, or the end of the input inside one.
The strict reader reports the first fault with its place; the lenient one writes U+FFFD for
each fault and goes on behind it. A surrogate has no bytes, so a wide text that holds one is not
written.
-/

namespace FlowReport

/-- The content of a file. -/
abbrev Bytes := List UInt8

/-- Why no character could be read. -/
inductive Utf8Fault where
  | startByte
  | continuation
  | endOfData
  deriving DecidableEq, Repr

/-- The first fault of an input, the bytes it covers and where they begin. -/
structure Utf8Error where
  fault : Utf8Fault
  bytes : Bytes
  position : Nat
  deriving DecidableEq, Repr

/-- The first surrogates of a wide text that stand side by side, and where they begin. -/
structure SurrogateRun where
  run : WideText
  position : Nat
  deriving DecidableEq, Repr

namespace Utf8

/-- The bytes of a text. -/
def encode (s : Text) : Bytes := s.flatMap String.utf8EncodeChar

/-- A code point that is a character. -/
def isChar : CodePoint → Bool
  | .char _ => true
  | .surrogate _ => false

/-- The bytes of a wide text, or the surrogates that have none. -/
def encodeWide (s : WideText) : Except SurrogateRun Bytes :=
  match s.text? with
  | some t => .ok (encode t)
  | none =>
    .error ⟨(s.dropWhile isChar).takeWhile (!isChar ·), (s.takeWhile isChar).length⟩

theorem encodeWide_wide (s : Text) : encodeWide s.wide = .ok (encode s) := by
  simp [encodeWide, WideText.text?_wide]

/-- The byte has the form 10xxxxxx. -/
def isContinuation (b : UInt8) : Bool := 0x80 ≤ b && b < 0xc0

/-- The second byte of a character of three or four bytes is one that the first allows: it
encodes no shorter character, no surrogate and nothing beyond U+10FFFF. -/
def allowsSecond (first second : UInt8) : Bool :=
  isContinuation second &&
    if first = 0xe0 then 0xa0 ≤ second
    else if first = 0xed then second < 0xa0
    else if first = 0xf0 then 0x90 ≤ second
    else if first = 0xf4 then second < 0x90
    else true

/-- The six payload bits of a continuation byte. -/
def payload (b : UInt8) : Nat := b.toNat % 64

/-- One reading step at the head of an input: a character, or a fault, with the number of
bytes it covers. -/
inductive Step where
  | char (c : Char) (size : Nat)
  | fault (why : Utf8Fault) (size : Nat)

/-- Reads a character of four bytes whose first byte is `first`. -/
def stepFour (first : UInt8) : Bytes → Step
  | [] => .fault .endOfData 1
  | b :: r =>
    if !allowsSecond first b then .fault .continuation 1
    else match r with
      | [] => .fault .endOfData 2
      | c :: r =>
        if !isContinuation c then .fault .continuation 2
        else match r with
          | [] => .fault .endOfData 3
          | d :: _ =>
            if !isContinuation d then .fault .continuation 3
            else .char (Char.ofNat (((first.toNat % 8 * 64 + payload b) * 64 + payload c) * 64
              + payload d)) 4

/-- Reads a character of three bytes whose first byte is `first`. -/
def stepThree (first : UInt8) : Bytes → Step
  | [] => .fault .endOfData 1
  | b :: r =>
    if !allowsSecond first b then .fault .continuation 1
    else match r with
      | [] => .fault .endOfData 2
      | c :: _ =>
        if !isContinuation c then .fault .continuation 2
        else .char (Char.ofNat ((first.toNat % 16 * 64 + payload b) * 64 + payload c)) 3

/-- Reads a character of two bytes whose first byte is `first`. -/
def stepTwo (first : UInt8) : Bytes → Step
  | [] => .fault .endOfData 1
  | b :: _ =>
    if !isContinuation b then .fault .continuation 1
    else .char (Char.ofNat (first.toNat % 32 * 64 + payload b)) 2

/-- Reads the character that starts with `first`. -/
def step (first : UInt8) (rest : Bytes) : Step :=
  if first < 0x80 then .char (Char.ofNat first.toNat) 1
  else if first < 0xc2 then .fault .startByte 1
  else if first < 0xe0 then stepTwo first rest
  else if first < 0xf0 then stepThree first rest
  else if first < 0xf5 then stepFour first rest
  else .fault .startByte 1

/-- Decodes from `position` on; `skip` bytes belong to a character already read. -/
def decodeFrom (position : Nat) : Nat → Bytes → Except Utf8Error Text
  | _, [] => .ok []
  | skip + 1, _ :: r => decodeFrom (position + 1) skip r
  | 0, b :: r =>
    match step b r with
    | .char c size => (decodeFrom (position + 1) (size - 1) r).map (c :: ·)
    | .fault why size => .error ⟨why, (b :: r).take size, position⟩

/-- The text that the bytes encode, or the first fault. -/
def decode (bytes : Bytes) : Except Utf8Error Text := decodeFrom 0 0 bytes

/-- Decodes with U+FFFD in the place of each fault; `skip` bytes belong to what was read. -/
def decodeLenientFrom : Nat → Bytes → Text
  | _, [] => []
  | skip + 1, _ :: r => decodeLenientFrom skip r
  | 0, b :: r =>
    match step b r with
    | .char c size => c :: decodeLenientFrom (size - 1) r
    | .fault _ size => '\ufffd' :: decodeLenientFrom (size - 1) r

/-- The text that the bytes encode, with U+FFFD in the place of each fault. -/
def decodeLenient (bytes : Bytes) : Text := decodeLenientFrom 0 bytes

end Utf8

end FlowReport
