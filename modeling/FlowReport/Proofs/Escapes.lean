import FlowReport.Proofs.Concatenation
import FlowReport.Proofs.Documents
import FlowReport.Report.Input

/-!
# Escaped texts

A compiler writes a text byte by byte: a printing character of ASCII as itself, unless it is a quote
or a backslash, and any other byte as a backslash and two hexadecimal digits. What is read back is one
character for each byte. So a text comes back as it was exactly if it is ASCII; of any other character
each byte becomes a character of its own. The name of the source file of a module is written so.
-/

namespace FlowReport

namespace Utf8

/-- The characters that have the bytes for code points. -/
def bytewise (bs : Bytes) : Text := bs.map fun b => Char.ofNat b.toNat

theorem length_le_encode (s : Text) : s.length ≤ (encode s).length := by
  induction s with
  | nil => exact Nat.zero_le _
  | cons c s ih =>
    have own := Char.utf8Size_pos c
    rw [encode, List.flatMap_cons, List.length_append, String.length_utf8EncodeChar,
      List.length_cons]
    rw [encode] at ih
    omega

theorem bytewise_encode_cons {c : Char} (ascii : c.toNat < 0x80) (s : Text) :
    bytewise (encode (c :: s)) = c :: bytewise (encode s) := by
  rw [encode, List.flatMap_cons, utf8EncodeChar_ascii ascii, List.singleton_append, bytewise,
    List.map_cons, toNat_toUInt8 ascii, Char.ofNat_toNat]
  rfl

/-- A text is the same byte by byte and character by character exactly if it is ASCII. -/
theorem bytewise_encode_eq_iff {s : Text} :
    bytewise (encode s) = s ↔ ∀ c ∈ s, c.toNat < 0x80 := by
  constructor
  · intro same
    induction s with
    | nil => simp
    | cons c s ih =>
      -- there are at least as many bytes as characters, so no character has two
      have count := congrArg List.length same
      have rest := length_le_encode s
      have own := Char.utf8Size_pos c
      rw [bytewise, List.length_map, encode, List.flatMap_cons, List.length_append,
        String.length_utf8EncodeChar, List.length_cons] at count
      rw [encode] at rest
      have single : c.utf8Size = 1 := by omega
      have ascii : c.toNat < 0x80 := Nat.lt_succ_of_le (Char.utf8Size_eq_one_iff.1 single)
      rw [bytewise_encode_cons ascii] at same
      exact List.forall_mem_cons.2 ⟨ascii, ih (List.cons.inj same).2⟩
  · intro ascii
    induction s with
    | nil => rfl
    | cons c s ih =>
      obtain ⟨head, tail⟩ := List.forall_mem_cons.1 ascii
      rw [bytewise_encode_cons head, ih tail]

end Utf8

namespace Assembly

/-- The byte is written as itself. -/
def isPlainByte (b : UInt8) : Bool :=
  0x20 ≤ b.toNat && b.toNat ≤ 0x7e && b.toNat != 0x22 && b.toNat != 0x5c

/-- A hexadecimal digit in upper case. -/
def upperHex (n : Nat) : Char := (Nat.digitChar n).toUpper

/-- A byte as it is written. -/
def escapedByte (b : UInt8) : Text :=
  if isPlainByte b then [Char.ofNat b.toNat]
  else ['\\', upperHex (b.toNat / 16), upperHex (b.toNat % 16)]

/-- Bytes as they are written. -/
def escape (bs : Bytes) : Text := bs.flatMap escapedByte

/-- Bytes as they are written, between quotes. -/
def written (bs : Bytes) : Text := '"' :: (escape bs ++ ['"'])

/-- A text as it is written between quotes. -/
def escapeText (s : Text) : Text := escape (Utf8.encode s)

/-! ## Reading back -/

theorem hexDigit?_upperHex : ∀ n < 16, hexDigit? (upperHex n) = some n := by decide

theorem hexByte?_upperHex (b : UInt8) :
    hexByte? (upperHex (b.toNat / 16)) (upperHex (b.toNat % 16)) = some b.toNat := by
  have bound := b.toNat_lt
  rw [hexByte?, hexDigit?_upperHex _ (by omega), hexDigit?_upperHex _ (by omega)]
  show some (b.toNat / 16 * 16 + b.toNat % 16) = some b.toNat
  rw [Nat.div_add_mod']

/-- Only a backslash starts an escape. -/
theorem unescape_cons {c : Char} (other : c ≠ '\\') (s : Text) :
    unescape (c :: s) = c :: unescape s := by
  rw [unescape.eq_2]
  rintro a b r rfl -
  exact other rfl

theorem ne_of_isPlainByte {b : UInt8} (plain : isPlainByte b = true) :
    0x20 ≤ (Char.ofNat b.toNat).toNat ∧ (Char.ofNat b.toNat).toNat ≤ 0x7e ∧
      Char.ofNat b.toNat ≠ '"' ∧ Char.ofNat b.toNat ≠ '\\' := by
  have bound := b.toNat_lt
  simp only [isPlainByte, Bool.and_eq_true, decide_eq_true_eq, bne_iff_ne] at plain
  have code : (Char.ofNat b.toNat).toNat = b.toNat := by
    rw [Char.ofNat, dif_pos (.inl (by omega))]
    rfl
  refine ⟨by omega, by omega, fun same => ?_, fun same => ?_⟩
  · exact plain.1.2 (code.symm.trans (congrArg Char.toNat same))
  · exact plain.2 (code.symm.trans (congrArg Char.toNat same))

theorem unescape_escapedByte (b : UInt8) (rest : Text) :
    unescape (escapedByte b ++ rest) = Char.ofNat b.toNat :: unescape rest := by
  unfold escapedByte
  split
  · rename_i plain
    exact unescape_cons (ne_of_isPlainByte plain).2.2.2 rest
  · show unescape ('\\' :: upperHex (b.toNat / 16) :: upperHex (b.toNat % 16) :: rest) = _
    rw [unescape, hexByte?_upperHex]

/-- Reading what was written gives one character for each byte. -/
theorem unescape_escape (bs : Bytes) : unescape (escape bs) = Utf8.bytewise bs := by
  induction bs with
  | nil => rfl
  | cons b bs ih =>
    rw [escape, List.flatMap_cons, unescape_escapedByte]
    exact congrArg _ ih

/-! ## What is written -/

/-- The character is a printing one of ASCII. -/
def IsPrinting (c : Char) : Prop := 0x20 ≤ c.toNat ∧ c.toNat ≤ 0x7e

instance (c : Char) : Decidable (IsPrinting c) := inferInstanceAs (Decidable (_ ∧ _))

theorem not_lineBreak_of_isPrinting {c : Char} (h : IsPrinting c) : isLineBreak c = false := by
  obtain ⟨low, high⟩ := h
  simp only [isLineBreak, Bool.or_eq_false_iff, Bool.and_eq_false_iff, decide_eq_false_iff_not,
    beq_eq_false_iff_ne]
  omega

/-- Bytes are written in printing characters, and none of them is a quote. -/
theorem isPrinting_of_mem_escape {bs : Bytes} {c : Char} (member : c ∈ escape bs) :
    IsPrinting c ∧ c ≠ '"' := by
  have digit : ∀ d < 16, IsPrinting (upperHex d) ∧ upperHex d ≠ '"' := by decide
  obtain ⟨b, -, inside⟩ := List.mem_flatMap.1 member
  have bound := b.toNat_lt
  unfold escapedByte at inside
  split at inside
  · rename_i plain
    obtain ⟨low, high, other, -⟩ := ne_of_isPlainByte plain
    rw [List.mem_singleton.1 inside]
    exact ⟨⟨low, high⟩, other⟩
  · simp only [List.mem_cons, List.not_mem_nil, or_false] at inside
    rcases inside with rfl | rfl | rfl
    · decide
    · exact digit _ (by omega)
    · exact digit _ (by omega)

/-- A printing character as it is written. -/
def escapedChar (c : Char) : Text :=
  if c = '"' then ['\\', '2', '2'] else if c = '\\' then ['\\', '5', 'C'] else [c]

/-- Of the printing characters only the quote and the backslash are escaped. -/
theorem escapeText_cons {c : Char} (printing : IsPrinting c) (s : Text) :
    escapeText (c :: s) = escapedChar c ++ escapeText s := by
  obtain ⟨low, high⟩ := printing
  have code := Utf8.toNat_toUInt8 (show c.toNat < 0x80 by omega)
  have own : escapedByte c.toNat.toUInt8 = escapedChar c := by
    rw [escapedByte, isPlainByte, code, Char.ofNat_toNat, escapedChar]
    by_cases quote : c = '"'
    · rw [quote]
      rfl
    by_cases backslash : c = '\\'
    · rw [backslash]
      rfl
    · have codes : c.toNat ≠ 0x22 ∧ c.toNat ≠ 0x5c :=
        ⟨fun same => quote (Char.toNat_inj.1 same), fun same => backslash (Char.toNat_inj.1 same)⟩
      simp [quote, backslash, low, high, codes]
  rw [escapeText, Utf8.encode, List.flatMap_cons, Utf8.utf8EncodeChar_ascii (by omega), escape,
    List.singleton_append, List.flatMap_cons, own]
  rfl

/-! ## The name of the source file -/

/-- The line that gives a module's source file its name. -/
def sourceLine (s : Text) : Text := "source_filename = \"" ++ escapeText s ++ ['"']

theorem sourceLine_eq (s : Text) : sourceLine s =
    "source_filename".toList ++ ' ' :: '=' :: ' ' :: '"' :: (escapeText s ++ ['"']) := rfl

theorem trim_sourceLine (s : Text) : (sourceLine s).trim = sourceLine s := by
  have front : Text.dropBlank (sourceLine s) = sourceLine s := Text.dropBlank_cons (by decide) _
  rw [Text.trim, front]
  exact Text.dropBlankEnd_append_cons (by decide) _ []

namespace Chunk

/-- A line that is a chunk by itself stands between the chunks of the lines around it. -/
theorem ofLines_between {before : List Text} {line : Text} {chunk : Chunk}
    (top : ∀ c ∈ ofLines before, c.isComplete = true)
    (alone : ∀ rest, next line rest = (chunk, rest)) (after : List Text) :
    ofLines (before ++ line :: after) = ofLines before ++ chunk :: ofLines after := by
  rw [ofLines_append top, ofLines_cons, alone]

theorem sourceFilename?_sourceLine (s : Text) :
    sourceFilename? (sourceLine s) = some (Utf8.bytewise (Utf8.encode s)) := by
  have blank : ∀ (c : Char) (r : Text), isBlank c = false →
      Text.dropBlank (' ' :: c :: r) = c :: r := fun c r h => Text.dropBlank_cons h r
  rw [sourceLine_eq, sourceFilename?, Text.dropPrefix?_append, Option.bind_eq_bind,
    Option.bind_some, blank '=' _ (by decide)]
  simp only [Text.dropPrefix?, if_true, Option.bind_some, blank '"' _ (by decide),
    List.getLast?_concat, List.dropLast_concat, escapeText, unescape_escape]

theorem next_sourceLine (s : Text) (rest : List Text) : next (sourceLine s) rest =
    (.sourceFilename (Utf8.bytewise (Utf8.encode s)) (sourceLine s), rest) := by
  have said : ¬ (sourceLine s = [] ∨ (sourceLine s).head? = some ';') := by
    rw [not_or, show (sourceLine s).head? = some 's' from rfl]
    exact ⟨List.cons_ne_nil _ _, by decide⟩
  have other : (Text.dropPrefix? "define " (sourceLine s)).isSome = false := rfl
  simp only [next, trim_sourceLine, said, if_false, other, Bool.false_eq_true,
    sourceFilename?_sourceLine]

end Chunk

namespace Module

@[simp] theorem sourceFilename_addNode (m : Module) (key content : Text) :
    (m.addNode key content).sourceFilename = m.sourceFilename := by
  unfold addNode
  repeat' split
  all_goals rfl

/-- The name of the source file stays until another line gives it. -/
theorem sourceFilename_of_foldlM {chunks : List Chunk} {m m' : Module}
    (read : chunks.foldlM add m = .ok m')
    (silent : ∀ chunk ∈ chunks, ∀ name line, chunk ≠ .sourceFilename name line) :
    m'.sourceFilename = m.sourceFilename := by
  induction chunks generalizing m with
  | nil =>
    cases read
    rfl
  | cons chunk chunks ih =>
    rw [List.foldlM_cons] at read
    obtain ⟨mid, added, read⟩ := bind_eq_ok.1 read
    obtain ⟨own, others⟩ := List.forall_mem_cons.1 silent
    rw [ih read others]
    cases chunk with
    | define header body closing =>
      obtain ⟨f, -, rfl⟩ := add_define added
      rfl
    | openHeader => cases added
    | openBody => cases added
    | sourceFilename name line => exact absurd rfl (own name line)
    | node key content =>
      cases added
      exact sourceFilename_addNode m key content
    | _ =>
      cases added
      rfl

/-- **The name of the source file is read byte by byte.** If the last line of a module that gives the
source file's name gives it as the compiler writes it, then the module has one character for each
byte of the name; that is the name itself if and only if this is ASCII. What the module has is one
of the paths where the source code is looked for. -/
theorem sourceFilename_ascii_iff {text name : Text} {m : Module} {before after : List Text}
    (s : Text) (lines : text.lines = before ++ sourceLine s :: after)
    (top : ∀ chunk ∈ Chunk.ofLines before, chunk.isComplete = true)
    (last : ∀ chunk ∈ Chunk.ofLines after, ∀ name line, chunk ≠ .sourceFilename name line)
    (read : ofText text name = .ok m) :
    m.sourceFilename = some (Utf8.bytewise (Utf8.encode s)) ∧
      (m.sourceFilename = some s ↔ ∀ c ∈ s, c.toNat < 0x80) ∧
      ∀ found ∈ m.sourceFilename, found ≠ [] →
        ∀ path, Path.ofText found ∈ Input.sourcePaths path m := by
  have given : m.sourceFilename = some (Utf8.bytewise (Utf8.encode s)) := by
    rw [ofText, lines, Chunk.ofLines_between top (Chunk.next_sourceLine s)] at read
    obtain ⟨raw, folded, rfl⟩ := map_eq_ok.1 read
    rw [List.foldlM_append] at folded
    obtain ⟨m₁, -, folded⟩ := bind_eq_ok.1 folded
    rw [List.foldlM_cons] at folded
    obtain ⟨m₂, added, folded⟩ := bind_eq_ok.1 folded
    cases added
    exact sourceFilename_of_foldlM folded last
  refine ⟨given, by rw [given, Option.some.injEq, Utf8.bytewise_encode_eq_iff], ?_⟩
  intro found member nonempty path
  obtain ⟨c, rest, rfl⟩ := List.exists_cons_of_ne_nil nonempty
  rw [Input.sourcePaths, Option.mem_def.1 member]
  by_cases standard : path = Input.standard <;> simp [standard]

/-- The name of a source file with a quote, a backslash, a blank and what looks like an escape. -/
def quotedName : Text := "a \"b\\22.c"

theorem sourceFilename_ascii_iff_quoted :
    sourceLine quotedName = "source_filename = \"a \\22b\\5C22.c\"".toList ∧
      ∃ m, ofText (sourceLine quotedName) = .ok m ∧ m.sourceFilename = some quotedName ∧
        ∀ path, Path.ofText quotedName ∈ Input.sourcePaths path m := by
  obtain ⟨m, read, -⟩ : ∃ m, ofText (sourceLine quotedName) = .ok m ∧ m.funcs = [] :=
    map_eq_ok.1 (by decide +kernel)
  obtain ⟨-, iff, tried⟩ := @sourceFilename_ascii_iff (sourceLine quotedName) "stdin" m [] []
    quotedName (by decide) (by simp [Chunk.ofLines_nil]) (by simp [Chunk.ofLines_nil]) read
  have found := iff.2 (by decide)
  exact ⟨by decide, m, read, found, tried _ found (by decide)⟩

/-- A letter with an accent has two bytes, and each is read as a character. -/
theorem sourceFilename_not_decoded :
    sourceLine "é.c" = "source_filename = \"\\C3\\A9.c\"".toList ∧
      (ofText (sourceLine "é.c")).map (·.sourceFilename) = .ok (some "Ã©.c".toList) ∧
      ¬ ∀ s : Text, (ofText (sourceLine s)).map (·.sourceFilename) = .ok (some s) := by
  have read : (ofText (sourceLine "é.c")).map (·.sourceFilename) = .ok (some "Ã©.c".toList) := by
    decide +kernel
  refine ⟨by decide, read, fun all => ?_⟩
  have same := (all "é.c").symm.trans read
  exact absurd (Except.ok.inj same) (by decide)

end Module

end Assembly

end FlowReport
