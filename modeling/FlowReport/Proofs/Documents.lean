import FlowReport.Json.Printer
import FlowReport.Proofs.Numerals
import FlowReport.Text.Lines
import FlowReport.Text.Utf8

/-!
# Documents as files

A document is written in the printing characters of ASCII, with line feeds between its lines. So
nothing is lost on its way into a file and back: each character is one byte, and there is no carriage
return that the reader of a file would turn into something else.
-/

namespace FlowReport

namespace Text

/-- A line feed or a printing character of ASCII. -/
def isPlain (c : Char) : Bool := c == '\n' || (0x20 ≤ c.toNat && c.toNat ≤ 0x7e)

/-- The text has line feeds and printing characters of ASCII only. -/
def Plain (s : Text) : Prop := ∀ c ∈ s, isPlain c = true

instance (s : Text) : Decidable s.Plain :=
  decidable_of_iff (s.all isPlain = true) List.all_eq_true

/-- The characters of a numeral are digits of its base. -/
theorem exists_of_mem_toDigits {base n : Nat} {c : Char} (large : 1 < base)
    (member : c ∈ Nat.toDigits base n) : ∃ d < base, c = Nat.digitChar d := by
  induction n using Nat.strong_induction_on with
  | _ n ih =>
    by_cases one : n < base
    · rw [Nat.toDigits_of_lt_base one, List.mem_singleton] at member
      exact ⟨n, one, member⟩
    · rw [Nat.toDigits_of_base_le large (not_lt.1 one), List.mem_append,
        List.mem_singleton] at member
      rcases member with front | last
      · exact ih (n / base) (Nat.div_lt_self (by omega) large) front
      · exact ⟨n % base, Nat.mod_lt _ (by omega), last⟩

namespace Plain

variable {s t : Text}

theorem append (left : s.Plain) (right : t.Plain) : Plain (s ++ t) := by
  intro c member
  exact (List.mem_append.1 member).elim (left c) (right c)

theorem cons {c : Char} (head : isPlain c = true) (tail : s.Plain) : Plain (c :: s) :=
  List.forall_mem_cons.2 ⟨head, tail⟩

theorem replicate {c : Char} (h : isPlain c = true) (n : Nat) : Plain (List.replicate n c) :=
  fun _ member => List.eq_of_mem_replicate member ▸ h

theorem take (h : s.Plain) (n : Nat) : Plain (s.take n) := fun c member =>
  h c (List.mem_of_mem_take member)

theorem drop (h : s.Plain) (n : Nat) : Plain (s.drop n) := fun c member =>
  h c (List.mem_of_mem_drop member)

theorem join {mark : Text} {pieces : List Text} (between : mark.Plain)
    (each : ∀ piece ∈ pieces, piece.Plain) : Plain (Text.join mark pieces) := by
  fun_induction Text.join mark pieces with
  | case1 => exact fun _ member => absurd member List.not_mem_nil
  | case2 piece => exact each piece List.mem_cons_self
  | case3 piece next rest ih =>
    obtain ⟨head, tail⟩ := List.forall_mem_cons.1 each
    exact (head.append between).append (ih tail)

theorem of_digits (digits : ∀ c ∈ s, c.isDigit) : s.Plain := by
  intro c member
  have digit := digits c member
  rw [Char.isDigit, Bool.and_eq_true, decide_eq_true_eq, decide_eq_true_eq] at digit
  have low : 48 ≤ c.toNat := digit.1
  have high : c.toNat ≤ 57 := digit.2
  have range : 0x20 ≤ c.toNat ∧ c.toNat ≤ 0x7e := by omega
  simp [isPlain, range.1, range.2]

theorem ofNat (n : Nat) : Plain (Numeral.ofNat n) :=
  of_digits fun _ => Numeral.isDigit_of_mem_ofNat

theorem padded (width n : Nat) : Plain (Numeral.padded width n) :=
  of_digits fun _ => Numeral.isDigit_of_mem_padded

theorem hex (width n : Nat) : Plain (Text.hex width n) := by
  refine (replicate (by decide) _).append ?_
  intro c member
  obtain ⟨d, small, rfl⟩ := exists_of_mem_toDigits (by decide) member
  have all : ∀ d < 16, isPlain (Nat.digitChar d) = true := by decide
  exact all d small

end Plain

end Text

namespace Utf8

theorem utf8EncodeChar_ascii {c : Char} (ascii : c.toNat < 0x80) :
    String.utf8EncodeChar c = [c.toNat.toUInt8] := by
  have small : c.val.toNat ≤ 0x7f := Nat.le_of_lt_succ ascii
  simp only [String.utf8EncodeChar, small, if_true]
  rfl

theorem toNat_toUInt8 {c : Char} (ascii : c.toNat < 0x80) : c.toNat.toUInt8.toNat = c.toNat := by
  rw [Nat.toUInt8_eq, UInt8.toNat_ofNat']
  exact Nat.mod_eq_of_lt (by omega)

/-- Texts of ASCII characters are read back from their bytes. -/
theorem decodeFrom_encode {s : Text} (ascii : ∀ c ∈ s, c.toNat < 0x80) (position : Nat) :
    decodeFrom position 0 (encode s) = .ok s := by
  induction s generalizing position with
  | nil => rfl
  | cons c s ih =>
    obtain ⟨head, tail⟩ := List.forall_mem_cons.1 ascii
    have bytes : encode (c :: s) = c.toNat.toUInt8 :: encode s := by
      rw [encode, List.flatMap_cons, utf8EncodeChar_ascii head]
      rfl
    have value := toNat_toUInt8 head
    have read : step c.toNat.toUInt8 (encode s) = .char c 1 := by
      have low : c.toNat.toUInt8 < 0x80 := by
        rw [UInt8.lt_iff_toNat_lt, value]
        exact head
      rw [step, if_pos low, value, Char.ofNat_toNat]
    rw [bytes, decodeFrom, read]
    simp only [Nat.sub_self, ih tail]
    rfl

theorem decode_encode {s : Text} (plain : s.Plain) : decode (encode s) = .ok s := by
  apply decodeFrom_encode
  intro c member
  have one := plain c member
  rw [Text.isPlain, Bool.or_eq_true, Bool.and_eq_true, decide_eq_true_eq, decide_eq_true_eq,
    beq_iff_eq] at one
  rcases one with rfl | ⟨-, high⟩
  · decide
  · omega

end Utf8

/-- There is nothing to unify where there is no carriage return. -/
theorem Text.unifyBreaks_of_not_mem {s : Text} (none : '\r' ∉ s) : unifyBreaks s = s := by
  fun_induction unifyBreaks s with
  | case1 => rfl
  | case2 s ih => exact absurd List.mem_cons_self none
  | case3 c s _ ih =>
    rw [List.mem_cons, not_or] at none
    rw [if_neg (Ne.symm none.1), ih none.2]

theorem Text.unifyBreaks_eq {s : Text} (plain : s.Plain) : unifyBreaks s = s :=
  unifyBreaks_of_not_mem fun member => absurd (plain '\r' member) (by decide)

namespace Json

open Text (Plain)

theorem plain_unitEscape (n : Nat) : Plain (unitEscape n) :=
  .cons (by decide) (.cons (by decide) (.hex 4 n))

theorem plain_escapedPoint (p : CodePoint) : Plain (escapedPoint p) := by
  cases p with
  | surrogate k => exact plain_unitEscape _
  | char c =>
    show Plain (escapedChar c)
    unfold escapedChar
    split
    · rename_i quote
      rcases quote with rfl | rfl <;> decide
    iterate 5
      split
      · decide
    split
    · rename_i printing
      exact .cons (by simp [Text.isPlain, printing.1, printing.2]) (by decide)
    split
    · exact plain_unitEscape _
    · exact (plain_unitEscape _).append (plain_unitEscape _)

theorem plain_string (s : WideText) : Plain (string s) := by
  refine .append (.cons (by decide) ?_) (by decide)
  intro c member
  obtain ⟨p, -, inside⟩ := List.mem_flatMap.1 member
  exact plain_escapedPoint p c inside

theorem plain_ofInt (i : Int) : Plain (Numeral.ofInt i) := by
  cases i with
  | ofNat n => exact .ofNat n
  | negSucc n => exact .cons (by decide) (.ofNat _)

theorem plain_positional {digits : Text} (plain : digits.Plain) (p : Int) :
    Plain (Decimal.positional digits p) := by
  unfold Decimal.positional
  split
  · exact (plain.append (.replicate (by decide) _)).append (by decide)
  · extract_lets places
    split
    · exact (plain.take _).append (.cons (by decide) (plain.drop _))
    · exact .cons (by decide) (.cons (by decide) ((Plain.replicate (by decide) _).append plain))

theorem plain_scientific {digits : Text} (plain : digits.Plain) (exponent : Int) :
    Plain (Decimal.scientific digits exponent) := by
  unfold Decimal.scientific
  extract_lets fraction sign
  have fraction : fraction.Plain := by
    show Plain (if _ then _ else _)
    split
    · decide
    · exact .cons (by decide) (plain.drop _)
  have sign : Text.isPlain sign = true := by
    show Text.isPlain (if _ then _ else _) = true
    split <;> decide
  exact ((plain.take _).append fraction).append (.cons (by decide) (.cons sign (.padded _ _)))

theorem plain_doubleText (bits : Nat) : Plain (Decimal.doubleText documentWords bits) := by
  have signed : ∀ negative {s : Text}, s.Plain → Plain (Decimal.signed negative s) := by
    intro negative s plain
    unfold Decimal.signed
    split
    · exact .cons (by decide) plain
    · exact plain
  unfold Decimal.doubleText
  split
  · decide
  · exact signed _ (by decide)
  · exact signed _ (by decide)
  · refine signed _ ?_
    unfold Decimal.GridPoint.text
    extract_lets digits exponent
    split
    · exact plain_positional (.ofNat _) _
    · exact plain_scientific (.ofNat _) _

theorem plain_scalar (v : Json) : Plain (scalar v) := by
  cases v with
  | null => decide
  | bool b => cases b <;> decide
  | int i => exact plain_ofInt i
  | float f => exact plain_doubleText _
  | str s => exact plain_string s
  | arr items => exact show Plain "[]".toList by decide
  | obj fields => exact show Plain "\x7b\x7d".toList by decide

theorem plain_newLine (level : Nat) : Plain (newLine level) :=
  .cons (by decide) (.replicate (by decide) _)

mutual

theorem plain_indented (level : Nat) : (v : Json) → Plain (indented level v)
  | .arr (v :: rest) => by
    rw [indented]
    exact ((Plain.cons (by decide) (plain_newLine _)).append
      (.join (.cons (by decide) (plain_newLine _)) (plain_indentedItems _ (v :: rest)))).append
        (plain_newLine _) |>.append (by decide)
  | .obj (f :: rest) => by
    rw [indented]
    exact ((Plain.cons (by decide) (plain_newLine _)).append
      (.join (.cons (by decide) (plain_newLine _)) (plain_indentedFields _ (f :: rest)))).append
        (plain_newLine _) |>.append (by decide)
  | .arr [] => plain_scalar (.arr [])
  | .obj [] => plain_scalar (.obj [])
  | .null => plain_scalar .null
  | .bool b => plain_scalar (.bool b)
  | .int i => plain_scalar (.int i)
  | .float f => plain_scalar (.float f)
  | .str s => plain_scalar (.str s)

theorem plain_indentedItems (level : Nat) : (items : List Json) →
    ∀ piece ∈ indentedItems level items, Plain piece
  | [] => by
    rw [indentedItems]
    exact fun _ member => absurd member List.not_mem_nil
  | v :: rest => by
    rw [indentedItems]
    exact List.forall_mem_cons.2 ⟨plain_indented level v, plain_indentedItems level rest⟩

theorem plain_indentedFields (level : Nat) : (fields : List (WideText × Json)) →
    ∀ piece ∈ indentedFields level fields, Plain piece
  | [] => by
    rw [indentedFields]
    exact fun _ member => absurd member List.not_mem_nil
  | (k, v) :: rest => by
    rw [indentedFields]
    exact List.forall_mem_cons.2 ⟨((plain_string k).append (by decide)).append
      (plain_indented level v), plain_indentedFields level rest⟩

end

end Json

end FlowReport
