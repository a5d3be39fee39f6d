import FlowReport.Json.Basic

/-!
# Reading JSON

A reader for documents that reports the first fault and its place. It also takes the words for
what is no finite number; of two fields with one key the later gives the value. Each part of
the reader returns what it left over, which is shorter than what it got. An escape of half a
surrogate pair stands for that surrogate. Arrays and objects nest to a limited depth.
-/

namespace FlowReport.Json

/-- What is wrong with a document. -/
inductive Fault where
  | byteOrderMark
  | value
  | propertyName
  | colon
  | comma
  | extraData
  | controlCharacter
  | openString
  | escape
  | unicodeEscape
  deriving DecidableEq, Repr

/-- A value that holds others. -/
inductive Container where
  | array
  | object
  deriving DecidableEq, Repr

/-- Why a document was not read. A place is a line and a column, counted from one, and the
number of characters before it. -/
inductive ReadError where
  | fault (fault : Fault) (line column position : Nat)
  | numeral (error : NumeralError)
  | tooDeep (container : Container)
  deriving DecidableEq, Repr

/-- The most arrays and objects that lie inside one another. -/
def depthLimit : Nat := 990

namespace Reader

/-- A failure: a fault at the head of the text that was left, a numeral out of bounds, or a
container inside too many others. -/
inductive Failure where
  | at (fault : Fault) (rest : Text)
  | numeral (error : NumeralError)
  | tooDeep (container : Container)

/-- A result and a rest that is shorter than `s`. -/
abbrev Result (α : Type) (s : Text) := Except Failure (α × { r : Text // r.length < s.length })

/-- The blanks of documents. -/
def isSpace (c : Char) : Bool := c == ' ' || c == '\t' || c == '\n' || c == '\r'

/-- The text without the blanks at its front. -/
def skip (s : Text) : Text := s.dropWhile isSpace

theorem length_skip_le (s : Text) : (skip s).length ≤ s.length :=
  (List.dropWhile_suffix _).length_le

/-- An ASCII digit. -/
def isDigit (c : Char) : Bool := '0' ≤ c && c ≤ '9'

/-- The value of an ASCII hexadecimal digit. -/
def hexValue? (c : Char) : Option Nat :=
  if isDigit c then some (c.toNat - '0'.toNat)
  else if 'a' ≤ c ∧ c ≤ 'f' then some (c.toNat - 'a'.toNat + 10)
  else if 'A' ≤ c ∧ c ≤ 'F' then some (c.toNat - 'A'.toNat + 10)
  else none

/-- The UTF-16 unit that four hexadecimal digits write. -/
def unit? : Text → Option Nat
  | a :: b :: c :: d :: _ => do
    let a ← hexValue? a
    let b ← hexValue? b
    let c ← hexValue? c
    let d ← hexValue? d
    some (((a * 16 + b) * 16 + c) * 16 + d)
  | _ => none

/-- The character of an escape by a letter. -/
def letterEscape? (c : Char) : Option Char :=
  if c = '"' ∨ c = '\\' ∨ c = '/' then some c
  else if c = 'b' then some '\x08'
  else if c = 'f' then some '\x0c'
  else if c = 'n' then some '\n'
  else if c = 'r' then some '\r'
  else if c = 't' then some '\t'
  else none

/-- The code point of the escape at the head of `u`, and the number of characters behind the `u`
that belong to it. Two escapes may write the halves of one character. At least one more
character has to follow. -/
def unicodeEscape (u : Text) : Except Failure (CodePoint × Nat) :=
  let r := u.drop 1
  if r.length < 5 then .error (.at .unicodeEscape u)
  else match unit? r with
    | none => .error (.at .unicodeEscape u)
    | some high =>
      match r.drop 4 with
      | '\\' :: 'u' :: r' =>
        if 0xd800 ≤ high ∧ high < 0xdc00 ∧ 5 ≤ r'.length then
          match unit? r' with
          | none => .error (.at .unicodeEscape ('u' :: r'))
          | some low =>
            if 0xdc00 ≤ low ∧ low < 0xe000 then
              .ok (.ofNat (0x10000 + (high - 0xd800) * 0x400 + (low - 0xdc00)), 10)
            else .ok (.ofNat high, 4)
        else .ok (.ofNat high, 4)
      | _ => .ok (.ofNat high, 4)

/-- The code point of the escape whose backslash stands before `c`, and the number of characters
behind `c` that belong to it. -/
def escape (c : Char) (s : Text) : Except Failure (CodePoint × Nat) :=
  if c = 'u' then unicodeEscape (c :: s)
  else match letterEscape? c with
    | none => .error (.at .escape ('\\' :: c :: s))
    | some char => .ok (.char char, 0)

/-- The body of a string up to its closing quote, and the rest. `start` is the text from its
opening quote on, and `pass` characters belong to an escape already read. -/
def stringBody (start : Text) : (pass : Nat) → Text → Except Failure (WideText × Text)
  | _, [] => .error (.at .openString start)
  | pass + 1, _ :: s => stringBody start pass s
  | 0, '"' :: s => .ok ([], s)
  | 0, ['\\'] => .error (.at .openString start)
  | 0, '\\' :: c :: s =>
    match escape c s with
    | .error e => .error e
    | .ok (point, size) => (stringBody start (size + 1) (c :: s)).map fun x => (point :: x.1, x.2)
  | 0, c :: s =>
    if c.toNat < 0x20 then .error (.at .controlCharacter (c :: s))
    else (stringBody start 0 s).map fun x => (.char c :: x.1, x.2)

theorem map_cons_eq_ok {p : CodePoint} {e : Except Failure (WideText × Text)} {body : WideText}
    {rest : Text} (h : e.map (fun x => (p :: x.1, x.2)) = .ok (body, rest)) : ∃ b, e = .ok (b, rest) := by
  cases e with
  | error e => simp [Except.map] at h
  | ok x =>
    simp only [Except.map, Except.ok.injEq, Prod.mk.injEq] at h
    exact ⟨x.1, by rw [← h.2]⟩

theorem length_stringBody {start s rest : Text} {body : WideText} {pass : Nat}
    (h : stringBody start pass s = .ok (body, rest)) : rest.length ≤ s.length := by
  fun_induction stringBody start pass s generalizing body with
  | case1 => simp at h
  | case2 pass c s ih => exact Nat.le_succ_of_le (ih h)
  | case3 s => simp_all
  | case4 => simp at h
  | case5 => simp at h
  | case6 c s point size _ ih =>
    obtain ⟨b, hb⟩ := map_cons_eq_ok h
    exact Nat.le_succ_of_le (ih hb)
  | case7 => simp at h
  | case8 c s _ _ _ _ ih =>
    obtain ⟨b, hb⟩ := map_cons_eq_ok h
    exact Nat.le_succ_of_le (ih hb)

/-- A number's sign, whole digits, fraction digits and exponent, where it has them. -/
structure Number where
  negative : Bool
  whole : Text
  fraction : Option Text
  exponent : Option Int

/-- The value of a run of ASCII digits. -/
def digitsValue (ds : Text) : Nat := Numeral.value ds

/-- Reads the fraction behind the whole digits, if a digit follows the point. -/
def fraction (s : Text) : Option Text × Text :=
  match s with
  | '.' :: r =>
    match r.takeWhile isDigit with
    | [] => (none, s)
    | ds => (some ds, r.dropWhile isDigit)
  | _ => (none, s)

/-- Reads the exponent, if it has a digit. -/
def exponent (s : Text) : Option Int × Text :=
  match s with
  | e :: r =>
    if e = 'e' ∨ e = 'E' then
      let (negative, ds) : Bool × Text :=
        match r with
        | '-' :: t => (true, t)
        | '+' :: t => (false, t)
        | _ => (false, r)
      match ds.takeWhile isDigit with
      | [] => (none, s)
      | digits =>
        let n : Int := digitsValue digits
        (some (if negative then -n else n), ds.dropWhile isDigit)
    else (none, s)
  | [] => (none, s)

theorem fraction_suffix (s : Text) : (fraction s).2 <:+ s := by
  unfold fraction
  split
  · split
    · exact List.suffix_refl _
    · exact (List.dropWhile_suffix _).trans (List.suffix_cons _ _)
  · exact List.suffix_refl _

theorem exponent_suffix (s : Text) : (exponent s).2 <:+ s := by
  unfold exponent
  split
  · split
    · split
      split
      · exact List.suffix_refl _
      · refine (List.dropWhile_suffix _).trans ?_
        rename_i r _ _ ds h _ _
        split at h <;> simp only [Prod.mk.injEq] at h <;> obtain ⟨_, rfl⟩ := h
        · exact (List.suffix_cons _ _).trans (List.suffix_cons _ _)
        · exact (List.suffix_cons _ _).trans (List.suffix_cons _ _)
        · exact List.suffix_cons _ _
    · exact List.suffix_refl _
  · exact List.suffix_refl _

/-- The whole digits of a number, which has no zero in front, and the rest. -/
def wholeDigits? (s : Text) : Option (Text × Text) :=
  match s with
  | [] => none
  | c :: r =>
    if c = '0' then some (['0'], r)
    else if isDigit c then some (c :: r.takeWhile isDigit, r.dropWhile isDigit)
    else none

theorem length_wholeDigits {s ds r : Text} (h : wholeDigits? s = some (ds, r)) :
    r.length < s.length := by
  unfold wholeDigits? at h
  split at h
  · simp at h
  · rename_i c t
    split at h
    · simp_all
    split at h
    · simp only [Option.some.injEq, Prod.mk.injEq] at h
      have := (List.dropWhile_suffix (l := t) isDigit).length_le
      simp only [List.length_cons, ← h.2]
      omega
    · simp at h

/-- The rest of a text behind a number without a sign, with the number. -/
def unsigned? (negative : Bool) (s : Text) : Option (Number × Text) :=
  (wholeDigits? s).map fun (whole, r) =>
    let (fraction, r) := fraction r
    let (exponent, r) := exponent r
    (⟨negative, whole, fraction, exponent⟩, r)

theorem length_unsigned {negative : Bool} {s r : Text} {n : Number}
    (h : unsigned? negative s = some (n, r)) : r.length < s.length := by
  obtain ⟨⟨whole, t⟩, ht, hr⟩ := Option.map_eq_some_iff.1 h
  simp only [Prod.mk.injEq] at hr
  have h1 := (exponent_suffix (fraction t).2).length_le
  have h2 := (fraction_suffix t).length_le
  have h3 := length_wholeDigits ht
  rw [← hr.2]
  omega

/-- The number at the start of a text, and the rest. -/
def number? (s : Text) : Option (Number × Text) :=
  match s with
  | '-' :: t => unsigned? true t
  | t => unsigned? false t

theorem length_number {s r : Text} {n : Number} (h : number? s = some (n, r)) :
    r.length < s.length := by
  unfold number? at h
  split at h
  · exact Nat.lt_succ_of_lt (length_unsigned h)
  · exact length_unsigned h

/-- The value of a number: whole if it has neither fraction nor exponent. -/
def numberValue (n : Number) : Except Failure Json :=
  match n.fraction, n.exponent with
  | none, none =>
    if Numeral.digitLimit < n.whole.length then
      .error (.numeral (.tooManyDigits n.whole.length))
    else
      let i : Int := digitsValue n.whole
      .ok (.int (if n.negative then -i else i))
  | fraction, exponent =>
    let digits := n.whole ++ fraction.getD []
    .ok (.float (Decimal.toDouble n.negative (digitsValue digits)
      (exponent.getD 0 - (fraction.getD []).length)))

/-- The words that stand for values. -/
def words : List (Text × Json) :=
  [("null", .null), ("true", .bool true), ("false", .bool false),
    ("NaN", .float (0.0 / 0.0)), ("Infinity", .float (1.0 / 0.0)),
    ("-Infinity", .float (-1.0 / 0.0))]

/-- The word at the start of a text, and the rest. -/
def word? (s : Text) : Option (Json × Text) :=
  words.findSome? fun (word, v) => (Text.dropPrefix? word s).map (v, ·)

theorem length_word {s r : Text} {v : Json} (h : word? s = some (v, r)) :
    r.length < s.length := by
  obtain ⟨⟨word, w⟩, hw, h⟩ := List.exists_of_findSome?_eq_some h
  obtain ⟨t, ht, h⟩ := Option.map_eq_some_iff.1 h
  simp only [Prod.mk.injEq] at h
  have hlen := Text.length_of_dropPrefix? ht
  have : 0 < word.length := by
    simp only [words, List.mem_cons, Prod.mk.injEq, List.not_mem_nil, or_false] at hw
    rcases hw with h | h | h | h | h | h <;> simp [h.1]
  rw [← h.2]
  omega

/-- Reads a value that is neither a string nor an array nor an object. -/
def plainValue (s : Text) : Result Json s :=
  match h : word? s with
  | some (v, r) => .ok (v, ⟨r, length_word h⟩)
  | none =>
    match h : number? s with
    | none => .error (.at .value s)
    | some (n, r) => (numberValue n).map (·, ⟨r, length_number h⟩)

mutual

/-- Reads a value at the very start of a text, in which `room` containers may lie inside one
another. -/
def value (room : Nat) (s : Text) : Result Json s :=
  match s with
  | '"' :: t =>
    match h : stringBody ('"' :: t) 0 t with
    | .error e => .error e
    | .ok (body, r) => .ok (.str body, ⟨r, Nat.lt_succ_of_le (length_stringBody h)⟩)
  | '[' :: t =>
    have ht := length_skip_le t
    if room = 0 then .error (.tooDeep .array)
    else match h : skip t with
    | ']' :: r => .ok (.arr [], ⟨r, by simp [h] at ht ⊢; omega⟩)
    | _ =>
      match items (room - 1) (skip t) with
      | .error e => .error e
      | .ok (vs, r) => .ok (.arr vs, ⟨r.1, by have := r.2; simp; omega⟩)
  | '{' :: t =>
    have ht := length_skip_le t
    if room = 0 then .error (.tooDeep .object)
    else match h : skip t with
    | '}' :: r => .ok (.obj [], ⟨r, by simp [h] at ht ⊢; omega⟩)
    | _ =>
      match fields (room - 1) (skip t) with
      | .error e => .error e
      | .ok (fs, r) => .ok (.obj (Table.ofList fs), ⟨r.1, by have := r.2; simp; omega⟩)
  | t => plainValue t
termination_by 2 * s.length + 1
decreasing_by all_goals simp; omega

/-- Reads the items of an array up to its closing bracket. -/
def items (room : Nat) (s : Text) : Result (List Json) s :=
  match value room s with
  | .error e => .error e
  | .ok (v, r) =>
    have hr := Nat.lt_of_le_of_lt (length_skip_le r.1) r.2
    match h : skip r.1 with
    | ']' :: t => .ok ([v], ⟨t, by simp [h] at hr; omega⟩)
    | ',' :: t =>
      have ht : (skip t).length < s.length := by
        have := length_skip_le t
        simp [h] at hr
        omega
      match items room (skip t) with
      | .error e => .error e
      | .ok (vs, r) => .ok (v :: vs, ⟨r.1, Nat.lt_trans r.2 ht⟩)
    | rest => .error (.at .comma rest)
termination_by 2 * s.length + 2
decreasing_by all_goals omega

/-- Reads the fields of an object up to its closing brace. -/
def fields (room : Nat) (s : Text) : Result (List (WideText × Json)) s :=
  match s with
  | '"' :: t =>
    match hb : stringBody ('"' :: t) 0 t with
    | .error e => .error e
    | .ok (key, r) =>
      have hr := Nat.le_trans (length_skip_le r) (length_stringBody hb)
      match h : skip r with
      | ':' :: u =>
        have hu : (skip u).length < t.length := by
          have := length_skip_le u
          simp [h] at hr
          omega
        match value room (skip u) with
        | .error e => .error e
        | .ok (v, r) =>
          have hr := Nat.lt_of_le_of_lt (length_skip_le r.1) r.2
          match h : skip r.1 with
          | '}' :: w => .ok ([(key, v)], ⟨w, by simp [h] at hr ⊢; omega⟩)
          | ',' :: w =>
            have hw : (skip w).length < t.length := by
              have := length_skip_le w
              simp [h] at hr
              omega
            match fields room (skip w) with
            | .error e => .error e
            | .ok (fs, r) => .ok ((key, v) :: fs, ⟨r.1, by have := r.2; simp; omega⟩)
          | rest => .error (.at .comma rest)
      | rest => .error (.at .colon rest)
  | rest => .error (.at .propertyName rest)
termination_by 2 * s.length + 2
decreasing_by all_goals simp; omega

end

end Reader

/-- The place at which a rest of a text begins. -/
def faultAt (s : Text) (fault : Fault) (rest : Text) : ReadError :=
  let position := s.length - rest.length
  let before := s.take position
  .fault fault (before.count '\n' + 1) ((before.reverse.takeWhile (· ≠ '\n')).length + 1) position

/-- Reads a document. -/
def read (s : Text) : Except ReadError Json :=
  if s.head? = some '\ufeff' then .error (.fault .byteOrderMark 1 1 0)
  else match Reader.value depthLimit (Reader.skip s) with
    | .error (.at fault rest) => .error (faultAt s fault rest)
    | .error (.numeral e) => .error (.numeral e)
    | .error (.tooDeep container) => .error (.tooDeep container)
    | .ok (v, r) =>
      match Reader.skip r.1 with
      | [] => .ok v
      | rest => .error (faultAt s .extraData rest)

end FlowReport.Json
