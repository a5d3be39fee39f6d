import FlowReport.Text.Numeral
import Mathlib.Algebra.Group.Nat.Defs
import Mathlib.Data.List.TakeWhile

/-!
# Numerals read back

The numeral of a number is made of ASCII digits and is read as that number, if it is not too long
to be read at all. Padding a numeral with zeros does not change its value.
-/

namespace FlowReport

theorem decimal?_of_isDigit {c : Char} (h : c.isDigit) : decimal? c = some (c.toNat - 48) := by
  have range : 48 ≤ c.toNat ∧ c.toNat ≤ 57 := by
    rw [Char.isDigit, Bool.and_eq_true, decide_eq_true_eq, decide_eq_true_eq] at h
    exact h
  obtain ⟨low, high⟩ := range
  have ascii : c.toNat < 0x80 := by omega
  simp only [decimal?, ascii, if_true]
  rw [if_pos (by simp [low, high])]

theorem isDecimal_of_isDigit {c : Char} (h : c.isDigit) : isDecimal c = true := by
  rw [isDecimal, decimal?_of_isDigit h]
  rfl

theorem inRanges_iff {ranges : List (Nat × Nat)} {code : Nat} :
    inRanges ranges code = true ↔ ∃ r ∈ ranges, r.1 ≤ code ∧ code ≤ r.2 := by
  simp [inRanges]

/-- No digit of any script is a blank. -/
theorem not_blank_of_isDecimal {c : Char} (digit : isDecimal c = true) : isBlank c = false := by
  have apart : ∀ blank ∈ wideBlanks, ∀ digit ∈ wideDecimals,
      blank.2 < digit.1 ∨ digit.2 < blank.1 := by decide
  by_contra blank
  rw [Bool.not_eq_false] at blank
  by_cases ascii : c.toNat < 0x80
  · simp only [isDecimal, decimal?, isBlank, ascii, if_true] at digit blank
    split at digit
    · rename_i range
      simp only [Bool.and_eq_true, Bool.or_eq_true, decide_eq_true_eq] at range blank
      omega
    · cases digit
  · simp only [isDecimal, decimal?, isBlank, ascii, if_false, Option.isSome_map,
      List.find?_isSome, inRanges_iff, Bool.and_eq_true, decide_eq_true_eq] at digit blank
    obtain ⟨d, inside, low, high⟩ := digit
    obtain ⟨b, inside', low', high'⟩ := blank
    have := apart b inside' d inside
    omega

namespace Numeral

theorem isDigit_of_mem_ofNat {n : Nat} {c : Char} (h : c ∈ ofNat n) : c.isDigit :=
  Nat.isDigit_of_mem_toDigits (by decide) (by decide) h

/-- A padded numeral is made of digits. -/
theorem isDigit_of_mem_padded {width n : Nat} {c : Char} (h : c ∈ padded width n) : c.isDigit := by
  rcases List.mem_append.1 h with h | h
  · rw [List.eq_of_mem_replicate h]
    decide
  · exact isDigit_of_mem_ofNat h

/-- A mark that is no digit is not met in a padded numeral with an ending. -/
theorem not_mem_padded_append {c : Char} {ending : Text} (mark : c.isDigit = false)
    (other : c ∉ ending) (width n : Nat) : c ∉ padded width n ++ ending := by
  intro member
  rcases List.mem_append.1 member with digit | member
  · rw [isDigit_of_mem_padded digit] at mark
    cases mark
  · exact other member

theorem ofNat_ne_nil (n : Nat) : ofNat n ≠ [] := Nat.toDigits_ne_nil

/-- The value of ASCII digits. -/
theorem value_of_digits {s : Text} (digits : ∀ c ∈ s, c.isDigit) :
    value s = Nat.ofDigitChars 10 s 0 := by
  unfold value valueFrom Nat.ofDigitChars
  generalize 0 = acc
  induction s generalizing acc with
  | nil => rfl
  | cons c s ih =>
    obtain ⟨hc, digits⟩ := List.forall_mem_cons.1 digits
    rw [List.filterMap_cons_some (decimal?_of_isDigit hc), List.foldl_cons, List.foldl_cons,
      ih digits, Nat.mul_comm]
    rfl

theorem value_ofNat (n : Nat) : value (ofNat n) = n := by
  rw [value_of_digits fun _ => isDigit_of_mem_ofNat]
  exact Nat.ofDigitChars_ten_toDigits

theorem value_padded (width n : Nat) : value (padded width n) = n := by
  rw [value_of_digits fun _ => isDigit_of_mem_padded, padded, Nat.ofDigitChars_append,
    Nat.ofDigitChars_replicate_zero, Nat.mul_zero]
  exact Nat.ofDigitChars_ten_toDigits

theorem ofNat_injective {m n : Nat} (h : ofNat m = ofNat n) : m = n := by
  rw [← value_ofNat m, h, value_ofNat]

/-- The numbers that are written and read. -/
theorem length_ofNat_le_iff {n : Nat} : (ofNat n).length ≤ digitLimit ↔ n < 10 ^ digitLimit :=
  Nat.length_toDigits_le_iff (by decide) (by decide)

theorem write_eq {n : Nat} (small : n < 10 ^ digitLimit) : write n = .ok (ofNat n) := by
  rw [write, if_pos (length_ofNat_le_iff.2 small)]

/-- A numeral is read as the number that it was written for. -/
theorem read_ofNat {n : Nat} (small : n < 10 ^ digitLimit) : read (ofNat n) = .ok n := by
  have decimal : ∀ c ∈ ofNat n, isDecimal c = true :=
    fun c h => isDecimal_of_isDigit (isDigit_of_mem_ofNat h)
  have short : ¬ digitLimit < ((ofNat n).takeWhile isDecimal).length := by
    rw [List.takeWhile_eq_self_iff.2 decimal]
    exact not_lt.2 (length_ofNat_le_iff.2 small)
  rw [read]
  simp only [short, if_false, List.all_eq_true.2 decimal, if_true, value_ofNat]

end Numeral

end FlowReport
