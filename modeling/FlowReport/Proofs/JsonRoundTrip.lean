import FlowReport.Json.Parser
import FlowReport.Json.Printer
import FlowReport.Proofs.Documents
import FlowReport.Proofs.Tables

/-!
# Documents read back

A value that is written as a document is read back from it, if the reader can take it at all: its
whole numbers have not too many digits, its containers do not lie too deep, no key comes twice, and
no two surrogates stand side by side that would be read as the halves of one character.
-/

namespace FlowReport.Json

open Reader

namespace Reader

/-- The reader takes a value from the front of a text and leaves the rest. -/
def Reads {α : Type} {s : Text} (result : Result α s) (a : α) (rest : Text) : Prop :=
  ∃ shorter, result = .ok (a, ⟨rest, shorter⟩)

/-! ## Strings -/

theorem hexValue?_digitChar : ∀ d < 16, hexValue? (Nat.digitChar d) = some d := by decide

/-- One more place is one more digit. -/
theorem hex_succ {width : Nat} (wide : 0 < width) (n : Nat) :
    Text.hex (width + 1) n = Text.hex width (n / 16) ++ [Nat.digitChar (n % 16)] := by
  unfold Text.hex
  by_cases one : n < 16
  · have none : n / 16 = 0 := by omega
    obtain ⟨more, rfl⟩ : ∃ more, width = more + 1 := ⟨width - 1, by omega⟩
    rw [none, Nat.toDigits_of_lt_base one, Nat.mod_eq_of_lt one]
    simp [List.replicate_succ']
  · rw [Nat.toDigits_of_base_le (by decide) (not_lt.1 one)]
    simp [List.append_assoc]

/-- A unit takes four digits. -/
theorem hex_four {n : Nat} (small : n < 0x10000) : Text.hex 4 n =
    [Nat.digitChar (n / 16 / 16 / 16), Nat.digitChar (n / 16 / 16 % 16),
      Nat.digitChar (n / 16 % 16), Nat.digitChar (n % 16)] := by
  have first : Text.hex 1 (n / 16 / 16 / 16) = [Nat.digitChar (n / 16 / 16 / 16)] := by
    rw [Text.hex, Nat.toDigits_of_lt_base (by omega)]
    rfl
  rw [hex_succ (by decide), hex_succ (by decide), hex_succ (by decide), first]
  rfl

theorem length_hex_four {n : Nat} (small : n < 0x10000) : (Text.hex 4 n).length = 4 := by
  rw [hex_four small]
  rfl

theorem unit?_hex {n : Nat} (small : n < 0x10000) (rest : Text) :
    unit? (Text.hex 4 n ++ rest) = some n := by
  have digit : ∀ m, hexValue? (Nat.digitChar (m % 16)) = some (m % 16) :=
    fun m => hexValue?_digitChar _ (Nat.mod_lt _ (by decide))
  have first := hexValue?_digitChar (n / 16 / 16 / 16) (by omega)
  rw [hex_four small]
  simp only [List.cons_append, List.nil_append, unit?, first, digit, Option.bind_eq_bind,
    Option.bind_some, Option.some.injEq]
  omega

/-- A surrogate of the first half, which a character beyond 16 bits starts with. -/
def isHigh : CodePoint → Bool
  | .surrogate k => k < 0x400
  | .char _ => false

/-- A surrogate of the second half. -/
def isLow : CodePoint → Bool
  | .surrogate k => 0x400 ≤ k.val
  | .char _ => false

/-- No two code points side by side are the halves of a character. -/
def unpaired : WideText → Bool
  | p :: q :: s => !(isHigh p && isLow q) && unpaired (q :: s)
  | _ => true

/-- The text does not start with an escape that goes with a first half before it. -/
def StandsAlone (rest : Text) : Prop :=
  ∀ t, rest = '\\' :: 'u' :: t → ∃ unit, unit? t = some unit ∧ ¬ (0xdc00 ≤ unit ∧ unit < 0xe000)

/-- An escape is read as its own unit, if what follows does not make it the half of a character. -/
theorem unicodeEscape_unit {n : Nat} (small : n < 0x10000) {rest : Text} (more : rest ≠ [])
    (alone : 0xd800 ≤ n → n < 0xdc00 → StandsAlone rest) :
    unicodeEscape ('u' :: (Text.hex 4 n ++ rest)) = .ok (.ofNat n, 4) := by
  have enough : ¬ (Text.hex 4 n ++ rest).length < 5 := by
    rw [List.length_append, length_hex_four small]
    have := List.length_pos_iff.2 more
    omega
  have behind : (Text.hex 4 n ++ rest).drop 4 = rest := List.drop_left' (length_hex_four small)
  simp only [unicodeEscape, List.drop_one, List.tail_cons, enough, if_false, unit?_hex small, behind]
  split
  · rename_i t
    split
    · rename_i high
      obtain ⟨unit, read, other⟩ := alone high.1 high.2.1 t rfl
      simp only [read, other, if_false]
    · rfl
  · rfl

/-- The escapes of the two halves of a character are read as the character. -/
theorem unicodeEscape_pair {n : Nat} (small : n < 0x100000) {rest : Text} (more : rest ≠ []) :
    unicodeEscape ('u' :: (Text.hex 4 (0xd800 + n / 0x400) ++ (unitEscape (0xdc00 + n % 0x400) ++ rest)))
      = .ok (.ofNat (0x10000 + n), 10) := by
  have high : 0xd800 + n / 0x400 < 0x10000 := by omega
  have low : 0xdc00 + n % 0x400 < 0x10000 := by omega
  have enough : ¬ (Text.hex 4 (0xd800 + n / 0x400) ++
      (unitEscape (0xdc00 + n % 0x400) ++ rest)).length < 5 := by
    rw [List.length_append, length_hex_four high, List.length_append]
    simp only [unitEscape, List.length_cons]
    omega
  have enough' : 5 ≤ (Text.hex 4 (0xdc00 + n % 0x400) ++ rest).length := by
    rw [List.length_append, length_hex_four low]
    have := List.length_pos_iff.2 more
    omega
  have behind : (Text.hex 4 (0xd800 + n / 0x400) ++
      (unitEscape (0xdc00 + n % 0x400) ++ rest)).drop 4 =
        '\\' :: 'u' :: (Text.hex 4 (0xdc00 + n % 0x400) ++ rest) :=
    List.drop_left' (length_hex_four high)
  have halves : 0xd800 ≤ 0xd800 + n / 0x400 ∧ 0xd800 + n / 0x400 < 0xdc00 ∧
      5 ≤ (Text.hex 4 (0xdc00 + n % 0x400) ++ rest).length := ⟨by omega, by omega, enough'⟩
  have second : 0xdc00 ≤ 0xdc00 + n % 0x400 ∧ 0xdc00 + n % 0x400 < 0xe000 := by omega
  have value : 0x10000 + (0xd800 + n / 0x400 - 0xd800) * 0x400 + (0xdc00 + n % 0x400 - 0xdc00) =
      0x10000 + n := by omega
  simp only [unicodeEscape, List.drop_one, List.tail_cons, enough, if_false, unit?_hex high, behind,
    halves, and_self, if_true, unit?_hex low, second, value]

theorem stringBody_pass (start front rest : Text) :
    stringBody start front.length (front ++ rest) = stringBody start 0 rest := by
  induction front with
  | nil => rfl
  | cons c front ih =>
    rw [List.length_cons, List.cons_append, stringBody]
    exact ih

/-- Behind an escape the reader goes on with what follows it. -/
theorem stringBody_escape (front : Text) {start rest : Text} {c : Char} {p : CodePoint}
    (h : escape c (front ++ rest) = .ok (p, front.length)) :
    stringBody start 0 ('\\' :: c :: (front ++ rest)) =
      (stringBody start 0 rest).map fun x => (p :: x.1, x.2) := by
  have passed := stringBody_pass start (c :: front) rest
  rw [stringBody, h]
  exact congrArg (Except.map fun x => (p :: x.1, x.2)) passed

/-- The numbers of characters leave out the surrogates. -/
theorem toNat_range (c : Char) : c.toNat < 0xd800 ∨ 0xdfff < c.toNat ∧ c.toNat < 0x110000 := c.valid

theorem ofNat_toNat (c : Char) : CodePoint.ofNat c.toNat = .char c := by
  have range := toNat_range c
  have other : ¬ (CodePoint.surrogateStart ≤ c.toNat ∧ c.toNat < CodePoint.surrogateStart + 0x800) := by
    rw [CodePoint.surrogateStart]
    omega
  rw [CodePoint.ofNat, dif_neg other, if_pos (show c.toNat.isValidChar from c.valid), Char.ofNat_toNat]

theorem ofNat_surrogate (k : Fin 0x800) :
    CodePoint.ofNat (CodePoint.surrogateStart + k) = .surrogate k := by
  rw [CodePoint.ofNat, dif_pos ⟨by omega, by omega⟩]
  simp

/-- An escape by a letter. -/
theorem stringBody_letter {start rest : Text} {letter c : Char} (other : letter ≠ 'u')
    (h : letterEscape? letter = some c) : stringBody start 0 ('\\' :: letter :: rest) =
      (stringBody start 0 rest).map fun x => (.char c :: x.1, x.2) := by
  refine stringBody_escape [] ?_
  simp only [escape, other, if_false, h, List.length_nil]

/-- An escape of a unit. -/
theorem stringBody_unit {start rest : Text} {n : Nat} (small : n < 0x10000) (more : rest ≠ [])
    (alone : 0xd800 ≤ n → n < 0xdc00 → StandsAlone rest) :
    stringBody start 0 (unitEscape n ++ rest) =
      (stringBody start 0 rest).map fun x => (.ofNat n :: x.1, x.2) := by
  refine stringBody_escape (Text.hex 4 n) ?_
  rw [escape, if_pos rfl, unicodeEscape_unit small more alone, length_hex_four small]

/-- The escapes of a character beyond 16 bits. -/
theorem stringBody_pair {start rest : Text} {n : Nat} (small : n < 0x100000) (more : rest ≠ []) :
    stringBody start 0 (unitEscape (0xd800 + n / 0x400) ++ unitEscape (0xdc00 + n % 0x400) ++ rest) =
      (stringBody start 0 rest).map fun x => (.ofNat (0x10000 + n) :: x.1, x.2) := by
  have length : (Text.hex 4 (0xd800 + n / 0x400) ++ unitEscape (0xdc00 + n % 0x400)).length = 10 := by
    rw [List.length_append, length_hex_four (by omega), unitEscape, List.length_cons,
      List.length_cons, length_hex_four (by omega)]
  refine stringBody_escape (Text.hex 4 (0xd800 + n / 0x400) ++ unitEscape (0xdc00 + n % 0x400)) ?_
  rw [escape, if_pos rfl, List.append_assoc, unicodeEscape_pair small more, length]

/-- A printing character stands for itself, unless it has another meaning. -/
theorem stringBody_printing {start rest : Text} {c : Char} (quote : c ≠ '"') (slash : c ≠ '\\')
    (printing : 0x20 ≤ c.toNat) : stringBody start 0 (c :: rest) =
      (stringBody start 0 rest).map fun x => (.char c :: x.1, x.2) := by
  rw [stringBody, if_neg (Nat.not_lt.2 printing)]
  · exact quote
  · exact fun same _ => slash same
  · exact fun _ _ same _ => slash same

/-- Each code point is read back from what it is written as. -/
theorem stringBody_point (start : Text) (p : CodePoint) {rest : Text} (more : rest ≠ [])
    (alone : isHigh p = true → StandsAlone rest) :
    stringBody start 0 (escapedPoint p ++ rest) =
      (stringBody start 0 rest).map fun x => (p :: x.1, x.2) := by
  cases p with
  | surrogate k =>
    have number := ofNat_surrogate k
    refine (stringBody_unit (n := CodePoint.surrogateStart + k) ?_ more ?_).trans (by rw [number])
    · have := k.isLt
      rw [CodePoint.surrogateStart]
      omega
    · intro _ high
      refine alone (decide_eq_true ?_)
      rw [CodePoint.surrogateStart] at high
      omega
  | char c =>
    show stringBody start 0 (escapedChar c ++ rest) = _
    unfold escapedChar
    split_ifs with quote feed carriage tab back form printing narrow
    · rcases quote with rfl | rfl <;> exact stringBody_letter (by decide) rfl
    · rw [feed]
      exact stringBody_letter (by decide) rfl
    · rw [carriage]
      exact stringBody_letter (by decide) rfl
    · rw [tab]
      exact stringBody_letter (by decide) rfl
    · rw [back]
      exact stringBody_letter (by decide) rfl
    · rw [form]
      exact stringBody_letter (by decide) rfl
    · obtain ⟨mark, slash⟩ := not_or.1 quote
      exact stringBody_printing mark slash printing.1
    · rw [stringBody_unit narrow more, ofNat_toNat]
      intro low high
      have := toNat_range c
      omega
    · have range := toNat_range c
      have wide : 0x10000 + (c.toNat - 0x10000) = c.toNat := by omega
      rw [stringBody_pair (by omega) more, wide, ofNat_toNat]

/-- What is written for a code point goes with a first half before it only if it is a second one. -/
theorem standsAlone_escapedPoint {p : CodePoint} (other : isLow p = false) (rest : Text) :
    StandsAlone (escapedPoint p ++ rest) := by
  have unit : ∀ {n : Nat}, n < 0x10000 → ¬ (0xdc00 ≤ n ∧ n < 0xe000) → ∀ more,
      StandsAlone (unitEscape n ++ more) := by
    intro n small other more t same
    obtain rfl : Text.hex 4 n ++ more = t := (List.cons.inj (List.cons.inj same).2).2
    exact ⟨n, unit?_hex small more, other⟩
  have letter : ∀ {c : Char}, c ≠ 'u' → ∀ more, StandsAlone (['\\', c] ++ more) := by
    intro c other more t same
    exact absurd (List.cons.inj (List.cons.inj same).2).1 other
  cases p with
  | surrogate k =>
    have low : k.val < 0x400 := by simpa [isLow] using other
    refine unit ?_ ?_ rest <;> rw [CodePoint.value, CodePoint.surrogateStart] <;> omega
  | char c =>
    show StandsAlone (escapedChar c ++ rest)
    have range := toNat_range c
    unfold escapedChar
    split_ifs with quote feed carriage tab back form printing narrow
    · refine letter ?_ rest
      rcases quote with rfl | rfl <;> decide
    iterate 5 exact letter (by decide) rest
    · intro t same
      exact absurd (List.cons.inj same).1 (not_or.1 quote).2
    · exact unit narrow (by omega) rest
    · rw [List.append_assoc]
      exact unit (by omega) (by omega) _

/-- A string is read back from its body. -/
theorem stringBody_string (start : Text) {s : WideText} (h : unpaired s = true) (rest : Text) :
    stringBody start 0 (s.flatMap escapedPoint ++ '"' :: rest) = .ok (s, rest) := by
  induction s with
  | nil => rfl
  | cons p s ih =>
    have more : s.flatMap escapedPoint ++ '"' :: rest ≠ [] := by simp
    rw [List.flatMap_cons, List.append_assoc, stringBody_point start p more, ih]
    · rfl
    · cases s with
      | nil => rfl
      | cons q s => exact (Bool.and_eq_true _ _ ▸ h).2
    · intro high
      cases s with
      | nil =>
        intro t same
        cases same
      | cons q s =>
        rw [List.flatMap_cons, List.append_assoc]
        refine standsAlone_escapedPoint ?_ _
        have apart := (Bool.and_eq_true _ _ ▸ h).1
        simpa [high] using apart

/-! ## Numbers and words -/

/-- What stands behind a value in a document: a comma, or the end of its line. -/
def Ended (rest : Text) : Prop := ∃ c t, rest = c :: t ∧ (c = ',' ∨ c = '\n')

/-- The numeral of a positive number has no zero in front. -/
theorem exists_ofNat {n : Nat} (positive : 0 < n) :
    ∃ c ds, Numeral.ofNat n = c :: ds ∧ c ≠ '0' ∧ ∀ d ∈ c :: ds, Reader.isDigit d = true := by
  have digits : ∀ d ∈ Numeral.ofNat n, Reader.isDigit d = true := fun d =>
    Numeral.isDigit_of_mem_ofNat
  obtain ⟨c, ds, same, first⟩ : ∃ c ds, Numeral.ofNat n = c :: ds ∧ c ≠ '0' := by
    clear digits
    induction n using Nat.strong_induction_on with
    | _ n ih =>
      by_cases one : n < 10
      · refine ⟨Nat.digitChar n, [], Nat.toDigits_of_lt_base one, ?_⟩
        have all : ∀ m < 10, 0 < m → Nat.digitChar m ≠ '0' := by decide
        exact all n one positive
      · obtain ⟨c, ds, same, first⟩ := ih (n / 10) (by omega) (by omega)
        refine ⟨c, ds ++ [Nat.digitChar (n % 10)], ?_, first⟩
        rw [Numeral.ofNat, Nat.toDigits_of_base_le (by decide) (by omega)]
        exact congrArg (· ++ _) same
  exact ⟨c, ds, same, first, same ▸ digits⟩

/-- Digits end where the value does. -/
theorem takeWhile_digits {ds rest : Text} (digits : ∀ d ∈ ds, Reader.isDigit d = true)
    (ended : Ended rest) : (ds ++ rest).takeWhile Reader.isDigit = ds ∧
      (ds ++ rest).dropWhile Reader.isDigit = rest := by
  obtain ⟨c, t, rfl, mark⟩ := ended
  have other : Reader.isDigit c = false := by rcases mark with rfl | rfl <;> decide
  constructor
  · rw [List.takeWhile_append_of_pos digits, List.takeWhile_cons_of_neg (by simp [other]),
      List.append_nil]
  · rw [List.dropWhile_append_of_pos digits, List.dropWhile_cons_of_neg (by simp [other])]

theorem wholeDigits?_ofNat (n : Nat) {rest : Text} (ended : Ended rest) :
    wholeDigits? (Numeral.ofNat n ++ rest) = some (Numeral.ofNat n, rest) := by
  by_cases zero : n = 0
  · subst zero
    rfl
  · obtain ⟨c, ds, same, first, digits⟩ := exists_ofNat (Nat.pos_of_ne_zero zero)
    obtain ⟨head, tail⟩ := List.forall_mem_cons.1 digits
    obtain ⟨taken, left⟩ := takeWhile_digits tail ended
    rw [same, List.cons_append, wholeDigits?, if_neg first, if_pos head, taken, left]

theorem unsigned?_ofNat (negative : Bool) (n : Nat) {rest : Text} (ended : Ended rest) :
    unsigned? negative (Numeral.ofNat n ++ rest) =
      some (⟨negative, Numeral.ofNat n, none, none⟩, rest) := by
  rw [unsigned?, wholeDigits?_ofNat n ended]
  obtain ⟨c, t, rfl, rfl | rfl⟩ := ended <;> rfl

/-- A digit, or a minus before one, starts no word. -/
theorem word?_eq_none {c : Char} (digit : c.isDigit) (t : Text) :
    word? (c :: t) = none ∧ word? ('-' :: c :: t) = none := by
  have other : ∀ d : Char, d.isDigit = false → d ≠ c := by
    rintro d no rfl
    rw [digit] at no
    cases no
  simp [word?, words, Text.dropPrefix?, other]

theorem plainValue_word {s rest : Text} {v : Json} (h : word? s = some (v, rest)) :
    Reads (plainValue s) v rest := by
  refine ⟨length_word h, ?_⟩
  unfold plainValue
  split
  · rename_i found
    rw [h] at found
    cases found
    rfl
  · rename_i none
    rw [h] at none
    cases none

theorem plainValue_number {s rest : Text} {n : Number} {v : Json} (none : word? s = none)
    (h : number? s = some (n, rest)) (value : numberValue n = .ok v) :
    Reads (plainValue s) v rest := by
  refine ⟨length_number h, ?_⟩
  unfold plainValue
  split
  · rename_i found
    rw [none] at found
    cases found
  · split
    · rename_i none
      rw [h] at none
      cases none
    · rename_i found
      rw [h] at found
      cases found
      rw [value]
      rfl

theorem numberValue_whole (negative : Bool) {n : Nat}
    (short : (Numeral.ofNat n).length ≤ Numeral.digitLimit) :
    numberValue ⟨negative, Numeral.ofNat n, none, none⟩ =
      .ok (.int (if negative then -(n : Int) else n)) := by
  rw [numberValue, if_neg (not_lt.2 short), digitsValue, Numeral.value_ofNat]

/-- An integer starts with a minus or a digit. -/
theorem exists_ofInt (i : Int) : ∃ c s, Numeral.ofInt i = c :: s ∧ (c = '-' ∨ c.isDigit) := by
  cases i with
  | ofNat n =>
    obtain ⟨c, ds, same⟩ := List.exists_cons_of_ne_nil (Numeral.ofNat_ne_nil n)
    exact ⟨c, ds, same, .inr (Numeral.isDigit_of_mem_ofNat (n := n) (same ▸ List.mem_cons_self))⟩
  | negSucc n => exact ⟨_, _, rfl, .inl rfl⟩

/-- A whole number is read back from its numeral. -/
theorem plainValue_int {i : Int} (short : (Numeral.ofNat i.natAbs).length ≤ Numeral.digitLimit)
    {rest : Text} (ended : Ended rest) :
    Reads (plainValue (Numeral.ofInt i ++ rest)) (.int i) rest := by
  have head : ∀ n, ∃ c ds, Numeral.ofNat n ++ rest = c :: ds ∧ c.isDigit := by
    intro n
    obtain ⟨c, ds, same⟩ := List.exists_cons_of_ne_nil (Numeral.ofNat_ne_nil n)
    exact ⟨c, ds ++ rest, by rw [same]; rfl,
      Numeral.isDigit_of_mem_ofNat (n := n) (same ▸ List.mem_cons_self)⟩
  cases i with
  | ofNat n =>
    obtain ⟨c, ds, same, digit⟩ := head n
    have number := unsigned?_ofNat false n ended
    refine plainValue_number ?_ ?_ (numberValue_whole false short)
    · rw [Numeral.ofInt, same]
      exact (word?_eq_none digit ds).1
    · have other : c ≠ '-' := by
        rintro rfl
        exact absurd digit (by decide)
      rw [Numeral.ofInt, ← number, same]
      unfold number?
      split
      · rename_i minus
        exact absurd (List.cons.inj minus).1 other
      · rfl
  | negSucc n =>
    obtain ⟨c, ds, same, digit⟩ := head (n + 1)
    have number := unsigned?_ofNat true (n + 1) ended
    refine plainValue_number ?_ ?_ (numberValue_whole true short)
    · rw [Numeral.ofInt, List.cons_append, same]
      exact (word?_eq_none digit ds).2
    · exact number

/-! ## Values -/

theorem skip_newLine (level : Nat) (s : Text) : skip (newLine level ++ s) = skip s := by
  have blank : ∀ c ∈ newLine level, isSpace c = true :=
    List.forall_mem_cons.2 ⟨rfl, fun c member => by rw [List.eq_of_mem_replicate member]; rfl⟩
  exact List.dropWhile_append_of_pos blank

theorem skip_eq {c : Char} {s : Text} (h : isSpace c = false) : skip (c :: s) = c :: s := by
  rw [skip, List.dropWhile_cons_of_neg (by simp [h])]

theorem reads_plain {room : Nat} {c : Char} {s rest : Text} {v : Json} (quote : c ≠ '"')
    (bracket : c ≠ '[') (brace : c ≠ '\x7b') (h : Reads (plainValue (c :: s)) v rest) :
    Reads (value room (c :: s)) v rest := by
  have same : value room (c :: s) = plainValue (c :: s) := by
    rw [value.eq_def]
    split <;> simp_all
  rw [same]
  exact h

theorem reads_string {room : Nat} {s rest : Text} {body : WideText}
    (h : stringBody ('"' :: s) 0 s = .ok (body, rest)) :
    Reads (value room ('"' :: s)) (.str body) rest := by
  refine ⟨Nat.lt_succ_of_le (length_stringBody h), ?_⟩
  rw [value.eq_def]
  simp only
  split
  · rename_i failed
    rw [h] at failed
    cases failed
  · rename_i found
    rw [h] at found
    cases found
    rfl

/-- A value that starts with a minus or a digit is a plain one. -/
theorem reads_int {i : Int} (short : (Numeral.ofNat i.natAbs).length ≤ Numeral.digitLimit)
    {room : Nat} {rest : Text} (ended : Ended rest) :
    Reads (value room (Numeral.ofInt i ++ rest)) (.int i) rest := by
  have number := plainValue_int short ended
  obtain ⟨c, s, same, first⟩ := exists_ofInt i
  have other : ∀ d : Char, d ≠ '-' → d.isDigit = false → c ≠ d := by
    rintro d minus digit rfl
    rcases first with same | yes
    · exact minus same
    · rw [yes] at digit
      cases digit
  rw [same] at number ⊢
  exact reads_plain (other _ (by decide) rfl) (other _ (by decide) rfl) (other _ (by decide) rfl)
    number

section Containers

variable {room : Nat} {s t u rest : Text} {v : Json} {vs : List Json} {key : WideText}
  {fs : List (WideText × Json)}

theorem reads_array (nonempty : ∀ t, skip s ≠ ']' :: t) (h : Reads (items room (skip s)) vs rest) :
    Reads (value (room + 1) ('[' :: s)) (.arr vs) rest := by
  obtain ⟨shorter, h⟩ := h
  have := length_skip_le s
  refine ⟨by simp; omega, ?_⟩
  rw [value.eq_def]
  simp only [Nat.add_sub_cancel, Nat.add_one_ne_zero, if_false]
  split
  · rename_i failed
    rw [h] at failed
    cases failed
  · rename_i found
    rw [h] at found
    cases found
    rfl

theorem reads_object (distinct : Table.Distinct fs) (nonempty : ∀ t, skip s ≠ '\x7d' :: t)
    (h : Reads (fields room (skip s)) fs rest) :
    Reads (value (room + 1) ('\x7b' :: s)) (.obj fs) rest := by
  obtain ⟨shorter, h⟩ := h
  have := length_skip_le s
  refine ⟨by simp; omega, ?_⟩
  rw [value.eq_def]
  simp only [Nat.add_sub_cancel, Nat.add_one_ne_zero, if_false]
  split
  · rename_i failed
    rw [h] at failed
    cases failed
  · rename_i found
    rw [h] at found
    cases found
    rw [Table.ofList_of_distinct distinct]

/-- Behind an entry its container is closed, or a comma and more entries follow. -/
def Follows {α : Type} (close : Char) (more : (s : Text) → Result (List α) s) (t : Text)
    (entries : List α) (rest : Text) : Prop :=
  skip t = close :: rest ∧ entries = [] ∨
    ∃ u, skip t = ',' :: u ∧ Reads (more (skip u)) entries rest

theorem Follows.length_lt {α : Type} {close : Char} {more : (s : Text) → Result (List α) s}
    {entries : List α} (h : Follows close more t entries rest) : rest.length < t.length := by
  have after := length_skip_le t
  rcases h with ⟨closed, -⟩ | ⟨u, comma, shorter, -⟩
  · rw [closed, List.length_cons] at after
    omega
  · have next := length_skip_le u
    rw [comma, List.length_cons] at after
    omega

/-- Behind an item the array is closed, or a comma and more items follow. -/
theorem reads_items (h : Reads (value room s) v t) (behind : Follows ']' (items room) t vs rest) :
    Reads (items room s) (v :: vs) rest := by
  obtain ⟨shorter, h⟩ := h
  have shorter' : rest.length < s.length := behind.length_lt.trans shorter
  refine ⟨shorter', ?_⟩
  rw [items.eq_def, h]
  simp only
  rcases behind with ⟨closed, rfl⟩ | ⟨u, comma, _, behind⟩
  · split
    · rename_i found
      rw [closed] at found
      cases found
      rfl
    · rename_i found
      rw [closed] at found
      cases found
    · rename_i other _
      exact absurd closed (other _)
  · split
    · rename_i found
      rw [comma] at found
      cases found
    · rename_i found
      rw [comma] at found
      cases found
      rw [behind]
    · rename_i other
      exact absurd comma (other _)

/-- Behind a field the object is closed, or a comma and more fields follow. -/
theorem reads_fields (name : stringBody ('"' :: s) 0 s = .ok (key, t)) (colon : skip t = ':' :: u)
    {r : Text} (h : Reads (value room (skip u)) v r)
    (behind : Follows '\x7d' (fields room) r fs rest) :
    Reads (fields room ('"' :: s)) ((key, v) :: fs) rest := by
  obtain ⟨shorter, h⟩ := h
  have shorter' : rest.length < ('"' :: s).length := by
    have first := length_stringBody name
    have second := length_skip_le t
    have third := length_skip_le u
    have fourth := behind.length_lt
    rw [colon, List.length_cons] at second
    rw [List.length_cons]
    omega
  refine ⟨shorter', ?_⟩
  rw [fields.eq_def]
  simp only
  split
  · rename_i failed
    rw [name] at failed
    cases failed
  rename_i found
  rw [name] at found
  cases found
  split
  · rename_i found
    rw [colon] at found
    cases found
    simp only [h]
    rcases behind with ⟨closed, rfl⟩ | ⟨w, comma, _, behind⟩
    · split
      · rename_i found
        rw [closed] at found
        cases found
        rfl
      · rename_i found
        rw [closed] at found
        cases found
      · rename_i other _
        exact absurd closed (other _)
    · split
      · rename_i found
        rw [comma] at found
        cases found
      · rename_i found
        rw [comma] at found
        cases found
        rw [behind]
      · rename_i other
        exact absurd comma (other _)
  · rename_i other
    exact absurd colon (other _)

theorem reads_empty_array : Reads (value (room + 1) ('[' :: ']' :: rest)) (.arr []) rest := by
  refine ⟨by simp only [List.length_cons]; omega, ?_⟩
  rw [value.eq_def]
  rfl

theorem reads_empty_object :
    Reads (value (room + 1) ('\x7b' :: '\x7d' :: rest)) (.obj []) rest := by
  refine ⟨by simp only [List.length_cons]; omega, ?_⟩
  rw [value.eq_def]
  rfl

end Containers

end Reader

mutual

/-- The reader takes the value back from its document: there is room for its containers and for the
digits of its numbers, its keys are distinct, its strings hold no halves of a character side by
side, and it holds no floating-point number. -/
def returns (room : Nat) : Json → Bool
  | .null | .bool _ => true
  | .int i => (Numeral.ofNat i.natAbs).length ≤ Numeral.digitLimit
  | .float _ => false
  | .str s => unpaired s
  | .arr items => 0 < room && returnsItems (room - 1) items
  | .obj fields => 0 < room && (fields.map (·.1)).Nodup && returnsFields (room - 1) fields

/-- The reader takes back every item. -/
def returnsItems (room : Nat) : List Json → Bool
  | [] => true
  | v :: rest => returns room v && returnsItems room rest

/-- The reader takes back every field. -/
def returnsFields (room : Nat) : List (WideText × Json) → Bool
  | [] => true
  | (k, v) :: rest => unpaired k && returns room v && returnsFields room rest

end

/-- The first character of a value: no blank, no end of a container and no mark of byte order. -/
def starts (c : Char) : Bool := c ∈ "nt\"[\x7b-".toList ++ ['f'] || c.isDigit

theorem head_indented (level : Nat) {room : Nat} {v : Json} (h : returns room v = true) :
    ∃ c s, indented level v = c :: s ∧ starts c = true := by
  cases v with
  | null => exact ⟨_, _, rfl, by decide⟩
  | bool b => cases b <;> exact ⟨_, _, rfl, by decide⟩
  | int i =>
    obtain ⟨c, s, same, minus | digit⟩ := exists_ofInt i
    · exact ⟨c, s, same, by rw [minus]; decide⟩
    · exact ⟨c, s, same, by simp [starts, digit]⟩
  | float f => cases h
  | str s => exact ⟨_, _, rfl, by decide⟩
  | arr items =>
    cases items with
    | nil => exact ⟨_, _, rfl, by decide⟩
    | cons v rest => rw [indented]; exact ⟨_, _, rfl, by decide⟩
  | obj fields =>
    cases fields with
    | nil => exact ⟨_, _, rfl, by decide⟩
    | cons f rest => rw [indented]; exact ⟨_, _, rfl, by decide⟩

theorem starts_ne {c d : Char} (h : starts c = true) (other : starts d = false) : c ≠ d := by
  rintro rfl
  rw [h] at other
  cases other

theorem isSpace_of_starts {c : Char} (h : starts c = true) : isSpace c = false := by
  rw [isSpace]
  simp only [Bool.or_eq_false_iff, beq_eq_false_iff_ne]
  exact ⟨⟨⟨starts_ne h (by decide), starts_ne h (by decide)⟩, starts_ne h (by decide)⟩,
    starts_ne h (by decide)⟩

theorem ended_newLine (level : Nat) (s : Text) : Ended (newLine level ++ s) := ⟨_, _, rfl, .inr rfl⟩

theorem ended_comma (s : Text) : Ended (',' :: s) := ⟨_, _, rfl, .inl rfl⟩

/-- Blanks before the items of an array are passed over, and an item ends no array. -/
theorem skip_items (level above : Nat) {room : Nat} {v : Json} (h : returns room v = true)
    (vs : List Json) (rest : Text) :
    let lines := Text.join (',' :: newLine level) (indentedItems level (v :: vs)) ++ rest
    skip (newLine above ++ lines) = lines ∧ ∀ t, lines ≠ ']' :: t := by
  obtain ⟨c, s, same, first⟩ := head_indented level h
  obtain ⟨t, front⟩ : ∃ t, Text.join (',' :: newLine level) (indentedItems level (v :: vs)) ++ rest =
      c :: t := by
    cases vs <;> simp [indentedItems, Text.join, same]
  intro lines
  rw [skip_newLine, show lines = c :: t from front]
  exact ⟨skip_eq (isSpace_of_starts first),
    fun _ closed => starts_ne first (by decide) (List.cons.inj closed).1⟩

/-- So are blanks before the fields of an object, which start with the quote of a key. -/
theorem skip_fields (level above : Nat) (k : WideText) (v : Json) (fs : List (WideText × Json))
    (rest : Text) :
    let lines := Text.join (',' :: newLine level) (indentedFields level ((k, v) :: fs)) ++ rest
    skip (newLine above ++ lines) = lines ∧ ∀ t, lines ≠ '\x7d' :: t := by
  obtain ⟨t, front⟩ : ∃ t, Text.join (',' :: newLine level) (indentedFields level ((k, v) :: fs)) ++
      rest = '"' :: t := by
    cases fs <;> simp [indentedFields, Text.join, string]
  intro lines
  rw [skip_newLine, show lines = '"' :: t from front]
  exact ⟨skip_eq rfl, fun _ closed => absurd (List.cons.inj closed).1 (by decide)⟩

/-- A field is read from its line, if its value is. -/
theorem reads_field {level room : Nat} {k : WideText} {v : Json} {fs : List (WideText × Json)}
    {rest behind : Text} (key : unpaired k = true) (h : returns room v = true)
    (read : Reads (value room (indented level v ++ behind)) v behind)
    (follows : Follows '\x7d' (fields room) behind fs rest) :
    Reads (fields room (string k ++ ": " ++ indented level v ++ behind)) ((k, v) :: fs) rest := by
  have shape : string k ++ ": ".toList ++ indented level v ++ behind =
      '"' :: (k.flatMap escapedPoint ++ '"' :: ':' :: ' ' :: (indented level v ++ behind)) := by
    simp [string]
  obtain ⟨c, s, same, first⟩ := head_indented level h
  have blank : skip (' ' :: (indented level v ++ behind)) = indented level v ++ behind := by
    rw [same]
    exact skip_eq (isSpace_of_starts first)
  rw [shape]
  exact reads_fields (stringBody_string _ key _) (skip_eq rfl) (by rw [blank]; exact read) follows

mutual

/-- A value is read back from its lines. -/
theorem reads_indented : (v : Json) → ∀ (level : Nat) {room : Nat} {rest : Text},
    returns room v = true → Ended rest → Reads (value room (indented level v ++ rest)) v rest
  | .null, _, _, _, _, _ =>
    reads_plain (c := 'n') (by decide) (by decide) (by decide) (plainValue_word rfl)
  | .bool true, _, _, _, _, _ =>
    reads_plain (c := 't') (by decide) (by decide) (by decide) (plainValue_word rfl)
  | .bool false, _, _, _, _, _ =>
    reads_plain (c := 'f') (by decide) (by decide) (by decide) (plainValue_word rfl)
  | .int i, level, room, rest, h, ended => by
    rw [returns, decide_eq_true_eq] at h
    exact reads_int h ended
  | .float f, _, _, _, h, _ => by cases h
  | .str s, level, room, rest, h, _ => by
    have shape : string s ++ rest = '"' :: (s.flatMap escapedPoint ++ '"' :: rest) := by
      simp [string]
    show Reads (value room (string s ++ rest)) _ _
    rw [shape]
    exact reads_string (stringBody_string _ h rest)
  | .arr [], level, room, rest, h, _ => by
    obtain ⟨more, rfl⟩ : ∃ more, room = more + 1 := ⟨room - 1, by simp [returns] at h; omega⟩
    exact reads_empty_array
  | .obj [], level, room, rest, h, _ => by
    obtain ⟨more, rfl⟩ : ∃ more, room = more + 1 := ⟨room - 1, by simp [returns] at h; omega⟩
    exact reads_empty_object
  | .arr (v :: vs), level, room, rest, h, _ => by
    rw [returns, Bool.and_eq_true, decide_eq_true_eq] at h
    obtain ⟨more, rfl⟩ : ∃ more, room = more + 1 := ⟨room - 1, by omega⟩
    have shape : indented level (.arr (v :: vs)) ++ rest = '[' :: (newLine (level + 1) ++
        (Text.join (',' :: newLine (level + 1)) (indentedItems (level + 1) (v :: vs)) ++
          (newLine level ++ ']' :: rest))) := by
      rw [indented]
      simp
    have items := reads_indentedItems (v :: vs) (level + 1) level rest (List.cons_ne_nil _ _) h.2
    obtain ⟨skipped, inside⟩ := skip_items (level + 1) (level + 1) (Bool.and_eq_true_iff.1 h.2).1 vs
      (newLine level ++ ']' :: rest)
    rw [shape]
    refine reads_array ?_ ?_ <;> rw [skipped]
    · exact inside
    · exact items
  | .obj ((k, v) :: fs), level, room, rest, h, _ => by
    rw [returns, Bool.and_eq_true, Bool.and_eq_true, decide_eq_true_eq, decide_eq_true_eq] at h
    obtain ⟨more, rfl⟩ : ∃ more, room = more + 1 := ⟨room - 1, by omega⟩
    have shape : indented level (.obj ((k, v) :: fs)) ++ rest = '\x7b' :: (newLine (level + 1) ++
        (Text.join (',' :: newLine (level + 1)) (indentedFields (level + 1) ((k, v) :: fs)) ++
          (newLine level ++ '\x7d' :: rest))) := by
      rw [indented]
      simp
    have fields := reads_indentedFields ((k, v) :: fs) (level + 1) level rest
      (List.cons_ne_nil _ _) h.2
    obtain ⟨skipped, inside⟩ := skip_fields (level + 1) (level + 1) k v fs
      (newLine level ++ '\x7d' :: rest)
    rw [shape]
    refine reads_object h.1.2 ?_ ?_ <;> rw [skipped]
    · exact inside
    · exact fields

/-- The items of an array are read back from their lines. -/
theorem reads_indentedItems : (vs : List Json) → ∀ (level above : Nat) {room : Nat} (rest : Text),
    vs ≠ [] → returnsItems room vs = true → Reads (items room
      (Text.join (',' :: newLine level) (indentedItems level vs) ++ (newLine above ++ ']' :: rest)))
        vs rest
  | [], _, _, _, _, empty, _ => absurd rfl empty
  | [v], level, above, room, rest, _, h => by
    rw [returnsItems, Bool.and_eq_true] at h
    refine reads_items (reads_indented v level h.1 (ended_newLine _ _)) (.inl ⟨?_, rfl⟩)
    rw [skip_newLine]
    exact skip_eq rfl
  | v :: next :: vs, level, above, room, rest, _, h => by
    rw [returnsItems, Bool.and_eq_true] at h
    have shape : Text.join (',' :: newLine level) (indentedItems level (v :: next :: vs)) ++
        (newLine above ++ ']' :: rest) = indented level v ++ (',' :: (newLine level ++
          (Text.join (',' :: newLine level) (indentedItems level (next :: vs)) ++
            (newLine above ++ ']' :: rest)))) := by
      simp [indentedItems, Text.join]
    have behind := reads_indentedItems (next :: vs) level above rest (List.cons_ne_nil _ _) h.2
    obtain ⟨skipped, -⟩ := skip_items level level (Bool.and_eq_true_iff.1 h.2).1 vs
      (newLine above ++ ']' :: rest)
    rw [shape]
    exact reads_items (reads_indented v level h.1 (ended_comma _))
      (.inr ⟨_, skip_eq rfl, by rw [skipped]; exact behind⟩)

/-- The fields of an object are read back from their lines. -/
theorem reads_indentedFields : (fs : List (WideText × Json)) → ∀ (level above : Nat) {room : Nat}
    (rest : Text), fs ≠ [] → returnsFields room fs = true → Reads (fields room
      (Text.join (',' :: newLine level) (indentedFields level fs) ++
        (newLine above ++ '\x7d' :: rest))) fs rest
  | [], _, _, _, _, empty, _ => absurd rfl empty
  | [(k, v)], level, above, room, rest, _, h => by
    rw [returnsFields, Bool.and_eq_true, Bool.and_eq_true] at h
    refine reads_field h.1.1 h.1.2 (reads_indented v level h.1.2 (ended_newLine _ _))
      (.inl ⟨?_, rfl⟩)
    rw [skip_newLine]
    exact skip_eq rfl
  | (k, v) :: (k', v') :: fs, level, above, room, rest, _, h => by
    rw [returnsFields, Bool.and_eq_true, Bool.and_eq_true] at h
    have shape : Text.join (',' :: newLine level) (indentedFields level ((k, v) :: (k', v') :: fs)) ++
        (newLine above ++ '\x7d' :: rest) = string k ++ ": ".toList ++ indented level v ++
          (',' :: (newLine level ++
            (Text.join (',' :: newLine level) (indentedFields level ((k', v') :: fs)) ++
              (newLine above ++ '\x7d' :: rest)))) := by
      simp [indentedFields, Text.join]
    have behind := reads_indentedFields ((k', v') :: fs) level above rest
      (List.cons_ne_nil _ _) h.2
    obtain ⟨skipped, -⟩ := skip_fields level level k' v' fs (newLine above ++ '\x7d' :: rest)
    rw [shape]
    exact reads_field h.1.1 h.1.2 (reads_indented v level h.1.2 (ended_comma _))
      (.inr ⟨_, skip_eq rfl, by rw [skipped]; exact behind⟩)

end

/-- A document is read as the value that was written. -/
theorem read_indented {v : Json} (h : returns depthLimit v = true) :
    read (indented 0 v ++ ['\n']) = .ok v := by
  obtain ⟨c, s, same, first⟩ := head_indented 0 h
  have mark : ¬ (indented 0 v ++ ['\n']).head? = some '\ufeff' := by
    rw [same]
    exact fun found => starts_ne first (by decide) (Option.some.inj found)
  have front : skip (indented 0 v ++ ['\n']) = indented 0 v ++ ['\n'] := by
    rw [same]
    exact skip_eq (isSpace_of_starts first)
  obtain ⟨shorter, read⟩ : Reads (value depthLimit (skip (indented 0 v ++ ['\n']))) v ['\n'] := by
    rw [front]
    exact reads_indented v 0 h ⟨'\n', [], rfl, .inr rfl⟩
  rw [Json.read, if_neg mark, read]
  rfl

end FlowReport.Json
