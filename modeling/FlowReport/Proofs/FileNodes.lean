import FlowReport.Proofs.NodeLayout

/-!
# File nodes

A file node as a compiler prints it, on one line with the name and the directory between quotes. Its
parentheses are counted before anything is known of strings, and the kind of the node is told by a
word anywhere in it. So the file is read back, and the lines behind it are left alone, exactly if the
parentheses in its name and directory pair up and neither holds the word for a location.
-/

namespace FlowReport

namespace Text

/-- What is dropped from the end once is dropped. -/
theorem dropBlankEnd_dropBlankEnd (s : Text) : s.dropBlankEnd.dropBlankEnd = s.dropBlankEnd :=
  List.rdropWhile_idempotent isBlank s

theorem dropBlankEnd_prefix (s : Text) : s.dropBlankEnd <+: s := List.rdropWhile_prefix isBlank s

/-- A mark in a text of two parts is in the first or in the second one. -/
theorem append_eq_append_cons {s t front rest : Text} {mark : Char}
    (same : s ++ t = front ++ mark :: rest) :
    (∃ behind, s = front ++ mark :: behind) ∨
      ∃ front', front = s ++ front' ∧ t = front' ++ mark :: rest := by
  rcases List.append_eq_append_iff.1 same with ⟨front', rfl, there⟩ | ⟨behind, rfl, there⟩
  · exact .inr ⟨front', rfl, there⟩
  · cases behind with
    | nil => exact .inr ⟨[], by simp, by simpa using there.symm⟩
    | cons c behind =>
      obtain ⟨rfl, -⟩ := List.cons.inj there
      exact .inl ⟨behind, rfl⟩

end Text

namespace Assembly

/-- A field whose value starts with a quote. -/
def stringField (key value : Text) : Text := key ++ ':' :: ' ' :: '"' :: value

/-- The fields of a file node. -/
def fileFields (file directory : Text) : Text :=
  stringField "filename" (escapeText file ++ ['"']) ++
    ',' :: ' ' :: stringField "directory" (escapeText directory ++ ['"'])

/-- A file node. -/
def fileContent (file directory : Text) : Text :=
  "!DIFile".toList ++ '(' :: (fileFields file directory ++ [')'])

/-- The line that defines a file node under a number. -/
def fileNode (digits file directory : Text) : Text :=
  '!' :: (digits ++ ' ' :: '=' :: ' ' :: fileContent file directory)

/-! ## Escapes hide nothing else -/

section Printing

variable {s : Text} (printing : ∀ c ∈ s, IsPrinting c)
include printing

theorem unescape_escapeText : unescape (escapeText s) = s := by
  rw [escapeText, unescape_escape]
  exact Utf8.bytewise_encode_eq_iff.2 fun c member =>
    Nat.lt_of_le_of_lt (printing c member).2 (by decide)

theorem filter_escapeText : (escapeText s).filter isParen = s.filter isParen := by
  induction s with
  | nil => rfl
  | cons c s ih =>
    obtain ⟨own, others⟩ := List.forall_mem_cons.1 printing
    rw [escapeText_cons own, List.filter_append, ih others, ← List.singleton_append,
      List.filter_append]
    congr 1
    unfold escapedChar
    split
    · rename_i quote
      rw [quote]
      decide
    split
    · rename_i backslash
      rw [backslash]
      decide
    · rfl

theorem count_escapeText : (escapeText s).count ')' = s.count ')' := by
  rw [← List.count_filter (p := isParen) rfl, filter_escapeText printing,
    List.count_filter rfl]

/-- What can not be part of an escape is found in the written text where it is found in the text. -/
theorem prefix_escapeText_iff {part : Text} (clean : '"' ∉ part ∧ '\\' ∉ part) :
    part <+: escapeText s ↔ part <+: s := by
  induction s generalizing part with
  | nil => rfl
  | cons c s ih =>
    obtain ⟨own, others⟩ := List.forall_mem_cons.1 printing
    cases part with
    | nil => simp
    | cons a part =>
      simp only [List.mem_cons, not_or] at clean
      rw [escapeText_cons own, escapedChar]
      split
      · rename_i quote
        simp [quote, List.cons_prefix_cons, Ne.symm clean.1.1, Ne.symm clean.2.1]
      split
      · rename_i backslash
        simp [backslash, List.cons_prefix_cons, Ne.symm clean.2.1]
      · rw [List.singleton_append, List.cons_prefix_cons, List.cons_prefix_cons,
          ih others ⟨clean.1.2, clean.2.2⟩]

theorem infix_escapeText_iff {part : Text} (nonempty : part ≠ [])
    (clean : ∀ c ∈ ['"', '\\', '2', '5', 'C'], c ∉ part) :
    part <:+: escapeText s ↔ part <:+: s := by
  have away : ∀ c ∈ ['"', '\\', '2', '5', 'C'], ∀ t, part <:+: c :: t ↔ part <:+: t := by
    intro c member t
    have cut := Text.infix_append_cons_iff (s := []) (clean c member) t
    simpa [nonempty] using cut
  induction s with
  | nil => rfl
  | cons c s ih =>
    obtain ⟨own, others⟩ := List.forall_mem_cons.1 printing
    have found := ih others
    by_cases quote : c = '"'
    · rw [escapeText_cons own, quote]
      show part <:+: '\\' :: '2' :: '2' :: escapeText s ↔ _
      simpa [away] using found
    by_cases backslash : c = '\\'
    · rw [escapeText_cons own, backslash]
      show part <:+: '\\' :: '5' :: 'C' :: escapeText s ↔ _
      simpa [away] using found
    · have begins := prefix_escapeText_iff printing
        ⟨clean '"' (by decide), clean '\\' (by decide)⟩
      rw [escapeText_cons own, escapedChar, if_neg quote, if_neg backslash,
        List.singleton_append] at begins ⊢
      rw [List.infix_cons_iff, List.infix_cons_iff]
      exact or_congr begins found

end Printing

theorem unquoted_escapeText (s : Text) : '"' ∉ escapeText s :=
  fun member => (isPrinting_of_mem_escape member).2 rfl

/-! ## The fields of a file node -/

/-- The key and the value in a piece of a list of fields. -/
def pair? (piece : Text) : Option (Text × Text) :=
  (Text.cutAt? ':' piece.trim).map fun (key, value) => (key.trim, value.trim)

/-- A piece of blanks has no key, so it need not be left out. -/
theorem fieldsOf_eq (body : Text) :
    fieldsOf body = Table.ofList ((rawPieces .outside body).filterMap pair?) := by
  rw [fieldsOf, splitFields, List.filterMap_filter, List.filterMap_map]
  congr 2
  funext piece
  by_cases empty : piece.trim = []
  · simp [pair?, empty, Text.cutAt?]
  · simp [pair?, empty]

/-- The value of a field is read without the blanks at its end. -/
theorem pair?_stringField {c : Char} {key : Text} (nonblank : isBlank c = false)
    (trimmed : Text.trim (c :: key) = c :: key) (plain : ':' ∉ c :: key) (value : Text) :
    pair? (stringField (c :: key) value) = some (c :: key, '"' :: value.dropBlankEnd) := by
  have piece : (stringField (c :: key) value).trim =
      (c :: key) ++ ':' :: ' ' :: '"' :: value.dropBlankEnd := by
    rw [Text.trim, stringField, List.cons_append, Text.dropBlank_cons nonblank,
      ← List.cons_append]
    have kept := Text.dropBlankEnd_append_cons (c := '"') (by decide)
      (c :: key ++ [':', ' ']) value
    simpa using kept
  have rest : Text.trim (' ' :: '"' :: value.dropBlankEnd) = '"' :: value.dropBlankEnd := by
    have kept := Text.dropBlankEnd_append_cons (c := '"') (by decide) [] value.dropBlankEnd
    rw [Text.dropBlankEnd_dropBlankEnd] at kept
    exact kept
  rw [pair?, piece, Text.cutAt?_append plain, Option.map_some]
  exact congrArg some (congrArg₂ Prod.mk trimmed rest)

theorem pair?_filename (value : Text) : pair? (stringField "filename" value) =
    some ("filename".toList, '"' :: value.dropBlankEnd) :=
  @pair?_stringField 'f' "ilename" (by decide) (by decide) (by decide) value

theorem pair?_directory (value : Text) : pair? (stringField (' ' :: "directory".toList) value) =
    some ("directory".toList, '"' :: value.dropBlankEnd) :=
  @pair?_stringField 'd' "irectory" (by decide) (by decide) (by decide) value

/-- A key and a blank before a value cut nothing. -/
theorem uncut_stringField {key : Text} (plain : Field (key ++ [':', ' '])) {value : Text}
    (uncut : Nesting.Uncut .outside ('"' :: value)) :
    Nesting.Uncut .outside (stringField key value) := by
  have split : stringField key value = (key ++ [':', ' ']) ++ '"' :: value := by
    simp [stringField]
  rw [split, Nesting.uncut_append, show Nesting.outside.behind _ = .outside from plain.behind 0]
  exact ⟨plain.outer, uncut⟩

theorem plain_keys : Field ("filename".toList ++ [':', ' ']) ∧
    Field (' ' :: "directory".toList ++ [':', ' ']) :=
  ⟨.of_plain (by decide), .of_plain (by decide)⟩

/-- The fields of a node that ends inside of its first string. -/
theorem fieldsOf_one {value : Text} (unquoted : '"' ∉ value) :
    fieldsOf (stringField "filename" value) =
      [("filename".toList, '"' :: value.dropBlankEnd)] := by
  have pieces := @rawPieces_join [] _ (by simp)
    (uncut_stringField plain_keys.1 (Nesting.uncut_open unquoted))
  rw [List.nil_append, Text.join] at pieces
  rw [fieldsOf_eq, pieces, List.filterMap_cons_some (pair?_filename value), List.filterMap_nil]
  rfl

/-- The fields of a node whose first string is whole. -/
theorem fieldsOf_two (file : Text) {value : Text}
    (uncut : Nesting.Uncut .outside ('"' :: value)) :
    fieldsOf (stringField "filename" (escapeText file ++ ['"']) ++
        ',' :: ' ' :: stringField "directory" value) =
      [("filename".toList, written (Utf8.encode file)),
        ("directory".toList, '"' :: value.dropBlankEnd)] := by
  have field : Field (stringField "filename" (escapeText file ++ ['"'])) := by
    have both := plain_keys.1.append (.quoted (unquoted_escapeText file))
    simpa [stringField] using both
  have pieces := @rawPieces_join [stringField "filename" (escapeText file ++ ['"'])] _
    (by simpa using field) (uncut_stringField plain_keys.2 uncut)
  have closed : (escapeText file ++ ['"']).dropBlankEnd = escapeText file ++ ['"'] :=
    Text.dropBlankEnd_append_cons (by decide) _ []
  have first := pair?_filename (escapeText file ++ ['"'])
  rw [closed] at first
  have whole : stringField "filename" (escapeText file ++ ['"']) ++
      ',' :: ' ' :: stringField "directory" value =
      Text.join [','] ([stringField "filename" (escapeText file ++ ['"'])] ++
        [stringField (' ' :: "directory".toList) value]) := by
    rw [List.singleton_append, Text.join, Text.join, List.append_assoc]
    rfl
  rw [fieldsOf_eq, whole, pieces, List.singleton_append, List.filterMap_cons_some first,
    List.filterMap_cons_some (pair?_directory value), List.filterMap_nil]
  rfl

/-! ## Reading a file node -/

section Values

variable {s : Text}

/-- A value between quotes is decoded. -/
theorem unquoted?_written (printing : ∀ c ∈ s, IsPrinting c) :
    unquoted? (written (Utf8.encode s)) = some s := by
  have trimmed : (written (Utf8.encode s)).trim = written (Utf8.encode s) := by
    rw [Text.trim, written, Text.dropBlank_cons (by decide)]
    exact Text.dropBlankEnd_append_cons (c := '"') (by decide) ('"' :: escapeText s) []
  have quotes : 2 ≤ (written (Utf8.encode s)).length ∧
      (written (Utf8.encode s)).head? = some '"' ∧
      (written (Utf8.encode s)).getLast? = some '"' := by
    refine ⟨by simp [written], rfl, ?_⟩
    rw [written, ← List.cons_append, List.getLast?_concat]
  have body : ((written (Utf8.encode s)).drop 1).dropLast = escapeText s := List.dropLast_concat
  rw [unquoted?, trimmed, if_pos quotes, body, unescape_escapeText printing]

/-- A value without a second quote is taken as it is. -/
theorem unquoted?_open (unquoted : '"' ∉ s) :
    unquoted? ('"' :: s.dropBlankEnd) = some ('"' :: s.dropBlankEnd) := by
  have trimmed : Text.trim ('"' :: s.dropBlankEnd) = '"' :: s.dropBlankEnd := by
    rw [Text.trim, Text.dropBlank_cons (by decide)]
    have kept := Text.dropBlankEnd_append_cons (c := '"') (by decide) [] s.dropBlankEnd
    rwa [Text.dropBlankEnd_dropBlankEnd] at kept
  have single : ¬ (2 ≤ ('"' :: s.dropBlankEnd).length ∧
      ('"' :: s.dropBlankEnd).head? = some '"' ∧
      ('"' :: s.dropBlankEnd).getLast? = some '"') := by
    rintro ⟨long, -, last⟩
    obtain ⟨c, rest, cons⟩ : ∃ c rest, s.dropBlankEnd = c :: rest :=
      List.exists_cons_of_ne_nil (by rintro none; simp [none] at long)
    rw [cons, List.getLast?_cons_cons, ← cons] at last
    exact unquoted ((Text.dropBlankEnd_prefix s).subset (List.mem_of_getLast? last))
  rw [unquoted?, trimmed, if_neg single, if_neg (List.cons_ne_nil _ _)]

end Values

theorem argumentsOf?_append {marker : Text} (nonempty : marker ≠ []) (closed : '(' ∉ marker)
    (s : Text) : argumentsOf? marker (marker ++ '(' :: s) = enclosed? 0 s := by
  obtain ⟨c, rest, rfl⟩ := List.exists_cons_of_ne_nil nonempty
  have found : Text.cutBefore? (c :: rest) (c :: rest ++ '(' :: s) =
      some ([], c :: rest ++ '(' :: s) := by
    rw [List.cons_append, Text.cutBefore?, ← List.cons_append,
      if_pos (List.isPrefixOf_iff_prefix.2 (List.prefix_append _ _))]
  rw [argumentsOf?, found]
  show (Text.cutAt? '(' (c :: rest ++ '(' :: s)).bind _ = _
  rw [Text.cutAt?_append closed, Option.bind_some]

section FileNode

variable {file directory : Text}

theorem ofNode?_fileContent : SourceFile.ofNode? (fileContent file directory) =
    (enclosed? 0 (fileFields file directory ++ [')'])).map fun body =>
      ⟨(((fieldsOf body).get? "filename").bind unquoted?).getD [],
        (((fieldsOf body).get? "directory").bind unquoted?).getD []⟩ := by
  have arguments : argumentsOf? "!DIFile" (fileContent file directory) =
      enclosed? 0 (fileFields file directory ++ [')']) :=
    argumentsOf?_append (by decide) (by decide) _
  rw [SourceFile.ofNode?, arguments]
  cases enclosed? 0 (fileFields file directory ++ [')']) <;> rfl

/-- What stands before, between and behind the two texts. -/
theorem fileFields_eq (file directory : Text) : fileFields file directory =
    "filename: \"".toList ++ (escapeText file ++
      ("\", directory: \"".toList ++ (escapeText directory ++ ['"']))) := by
  rw [fileFields, stringField, List.append_assoc, List.cons_append, List.cons_append,
    List.cons_append, List.append_assoc]
  rfl

/-- Of the fields only the texts between the quotes can hold a parenthesis. -/
theorem fileFields_eq_append_cons {front behind : Text}
    (same : fileFields file directory = front ++ ')' :: behind) :
    (∃ w v, escapeText file = w ++ ')' :: v ∧ front = stringField "filename" w) ∨
      ∃ w v, escapeText directory = w ++ ')' :: v ∧
        front = stringField "filename" (escapeText file ++ ['"']) ++
          ',' :: ' ' :: stringField "directory" w := by
  have skip : ∀ {s t front : Text}, ')' ∉ s → s ++ t = front ++ ')' :: behind →
      ∃ front', s ++ front' = front ∧ t = front' ++ ')' :: behind := by
    intro s t front clean same
    obtain ⟨front', rfl, there⟩ := Text.append_eq_append_cons same |>.resolve_left (by
      rintro ⟨v, rfl⟩
      exact clean (List.mem_append_right _ List.mem_cons_self))
    exact ⟨front', rfl, there⟩
  rw [fileFields_eq] at same
  obtain ⟨front, rfl, behind₁⟩ := skip (by decide) same
  rcases Text.append_eq_append_cons behind₁ with ⟨v, first⟩ | ⟨front, rfl, behind₂⟩
  · exact .inl ⟨front, v, first, rfl⟩
  obtain ⟨front, rfl, behind₃⟩ := skip (by decide) behind₂
  rcases Text.append_eq_append_cons behind₃ with ⟨v, second⟩ | ⟨front, rfl, behind₄⟩
  · refine .inr ⟨front, v, second, ?_⟩
    rw [stringField, List.append_assoc, List.cons_append, List.cons_append, List.cons_append,
      List.append_assoc]
    rfl
  · have last : ')' ∈ ['"'] := behind₄ ▸ List.mem_append_right front List.mem_cons_self
    exact absurd last (by decide)

theorem matched_fileFields (printing : ∀ c ∈ file ++ directory, IsPrinting c) :
    Matched 0 (fileFields file directory) ↔ Matched 0 (file ++ directory) := by
  obtain ⟨printing, printing'⟩ := List.forall_mem_append.1 printing
  have parens : (fileFields file directory).filter isParen = (file ++ directory).filter isParen := by
    have first := filter_escapeText printing
    have second := filter_escapeText printing'
    simp [fileFields, stringField, isParen] at first second ⊢
    simp [first, second]
  rw [← matched_filter, parens, matched_filter]

section Cut

variable {s w v : Text} (cut : escapeText s = w ++ ')' :: v)

include cut

theorem unquoted_of_cut : '"' ∉ w := fun member =>
  unquoted_escapeText s (cut ▸ List.mem_append_left _ member)

/-- A text that is cut at a parenthesis has fewer of them than the one that was written, so it is
another one. -/
theorem ne_of_cut (printing : ∀ c ∈ s, IsPrinting c) : '"' :: w.dropBlankEnd ≠ s := by
  intro same
  have count := count_escapeText printing
  have kept := (Text.dropBlankEnd_prefix w).sublist.count_le ')'
  rw [cut, ← same, List.count_append, List.count_cons_self,
    List.count_cons_of_ne (by decide)] at count
  omega

end Cut

/-- The file is read back if and only if the parentheses in its texts pair up. -/
theorem ofNode?_fileContent_iff (printing : ∀ c ∈ file ++ directory, IsPrinting c) :
    SourceFile.ofNode? (fileContent file directory) = some ⟨file, directory⟩ ↔
      Matched 0 (file ++ directory) := by
  rw [ofNode?_fileContent, ← matched_fileFields printing, ← enclosed?_append_iff []]
  obtain ⟨printing, printing'⟩ := List.forall_mem_append.1 printing
  constructor
  · intro read
    obtain ⟨body, found, read⟩ := Option.map_eq_some_iff.1 read
    rw [SourceFile.mk.injEq] at read
    rw [found]
    obtain ⟨back, same⟩ := append_of_enclosed? found
    rcases Text.append_eq_append_cons same with ⟨behind, inside⟩ | ⟨front, rfl, last⟩
    · rcases fileFields_eq_append_cons inside with ⟨w, v, cut, rfl⟩ | ⟨w, v, cut, rfl⟩
      · rw [fieldsOf_one (unquoted_of_cut cut)] at read
        have value : (unquoted? ('"' :: w.dropBlankEnd)).getD [] = file := read.1
        rw [unquoted?_open (unquoted_of_cut cut)] at value
        exact absurd value (ne_of_cut cut printing)
      · rw [fieldsOf_two file (Nesting.uncut_open (unquoted_of_cut cut))] at read
        have value : (unquoted? ('"' :: w.dropBlankEnd)).getD [] = directory := read.2
        rw [unquoted?_open (unquoted_of_cut cut)] at value
        exact absurd value (ne_of_cut cut printing')
    · obtain rfl : front = [] := by
        cases front with
        | nil => rfl
        | cons c front => simp at last
      simp
  · intro found
    rw [found, Option.map_some, fileFields,
      fieldsOf_two file (Field.quoted (unquoted_escapeText directory)).outer]
    have closed : (escapeText directory ++ ['"']).dropBlankEnd = escapeText directory ++ ['"'] :=
      Text.dropBlankEnd_append_cons (by decide) _ []
    rw [closed]
    show some (SourceFile.mk ((unquoted? (written (Utf8.encode file))).getD [])
      ((unquoted? (written (Utf8.encode directory))).getD [])) = _
    rw [unquoted?_written printing, unquoted?_written printing']
    rfl

/-- A file node holds the word for a location where one of its texts does. -/
theorem contains_location_iff (printing : ∀ c ∈ file ++ directory, IsPrinting c) :
    Text.contains "!DILocation" (fileContent file directory) = true ↔
      "!DILocation".toList <:+: file ∨ "!DILocation".toList <:+: directory := by
  obtain ⟨printing, printing'⟩ := List.forall_mem_append.1 printing
  have parts : fileContent file directory = "!DIFile(filename: ".toList ++ '"' ::
      (escapeText file ++ '"' :: (", directory: ".toList ++ '"' ::
        (escapeText directory ++ '"' :: [')']))) := by
    show "!DIFile".toList ++ '(' :: (fileFields file directory ++ [')']) = _
    rw [fileFields_eq]
    simp only [List.append_assoc]
    rfl
  have whole : '"' ∉ "!DILocation".toList := by decide
  have clean : ∀ c ∈ ['"', '\\', '2', '5', 'C'], c ∉ "!DILocation".toList := by decide
  have around : ¬ "!DILocation".toList <:+: "!DIFile(filename: ".toList ∧
      ¬ "!DILocation".toList <:+: ", directory: ".toList ∧
      ¬ "!DILocation".toList <:+: [')'] := by decide
  rw [Text.contains_iff, parts]
  simp only [Text.infix_append_cons_iff whole, around, false_or, or_false,
    infix_escapeText_iff printing (by decide) clean,
    infix_escapeText_iff printing' (by decide) clean]

end FileNode

/-! ## The line of a file node -/

theorem parenBalance_fileContent {file directory : Text}
    (printing : ∀ c ∈ file ++ directory, IsPrinting c) (matched : Matched 0 (file ++ directory)) :
    parenBalance (fileContent file directory) = 0 := by
  have fields := parenBalance_of_matched ((matched_fileFields printing).2 matched)
  have parts : fileContent file directory =
      "!DIFile(".toList ++ (fileFields file directory ++ [')']) := rfl
  rw [parts, parenBalance_append, parenBalance_append, fields]
  decide

section Line

variable {digits : Text} (numeral : digits ≠ [] ∧ ∀ c ∈ digits, c.isDigit)

include numeral

/-- The line of a file node begins a node, which ends where its parentheses do. -/
theorem next_fileNode (file directory : Text) (rest : List Text) :
    Chunk.next (fileNode digits file directory) rest =
      let more := takeOpen Chunk.weight (parenBalance (fileContent file directory)) rest
      (.node ('!' :: digits) (Text.join [' '] (fileContent file directory :: more.1.map Text.trim))
        (fileNode digits file directory :: more.1), more.2) := by
  have decimal : digits ≠ [] ∧ ∀ c ∈ digits, isDecimal c = true :=
    ⟨numeral.1, fun c member => isDecimal_of_isDigit (numeral.2 c member)⟩
  have solid : Solid (fileContent file directory) :=
    (DebugKind.file.solid_head false).append ('(' :: fileFields file directory)
      (.singleton (by decide))
  have debug : namesDebugNode (fileContent file directory) = true :=
    DebugKind.file.namesDebugNode_head false _
  have next := next_nodeLine decimal solid rfl debug (List.forall_mem_nil _) rest
  rwa [List.append_nil] at next

/-- The line of a file node has printing characters only. -/
theorem isPrinting_of_mem_fileNode {file directory : Text} {c : Char}
    (member : c ∈ fileNode digits file directory) : IsPrinting c := by
  have parts : fileNode digits file directory = '!' :: (digits ++
      (" = !DIFile(filename: \"".toList ++ (escapeText file ++
        ("\", directory: \"".toList ++ (escapeText directory ++ "\")".toList))))) := by
    show '!' :: (digits ++ (" = !DIFile(".toList ++ (fileFields file directory ++ [')']))) = _
    rw [fileFields_eq]
    simp only [List.append_assoc]
    rfl
  have around : ∀ s ∈ [" = !DIFile(filename: \"", "\", directory: \"", "\")"],
      ∀ c ∈ s.toList, IsPrinting c := by decide
  have digit : ∀ c : Char, c.isDigit → IsPrinting c := by
    intro c digit
    simp only [Char.isDigit, Bool.and_eq_true, decide_eq_true_eq] at digit
    have range : 48 ≤ c.toNat ∧ c.toNat ≤ 57 := digit
    exact ⟨by omega, by omega⟩
  rw [parts] at member
  simp only [List.mem_cons, List.mem_append] at member
  rcases member with rfl | number | front | first | between | second | behind
  · decide
  · exact digit c (numeral.2 c number)
  · exact around _ (by simp) c front
  · exact (isPrinting_of_mem_escape first).1
  · exact around _ (by simp) c between
  · exact (isPrinting_of_mem_escape second).1
  · exact around _ (by simp) c behind

end Line

/-- The number under which a chunk defines a node. -/
def Chunk.nodeKey? : Chunk → Option Text
  | .node key _ _ => some key
  | _ => none

namespace Module

/-- The two readings fail alike, or the second one gives one more file than the first and nothing
else that is not the same. -/
inductive GainsFile (key : Text) (file : SourceFile) :
    Except ReadError Module → Except ReadError Module → Prop where
  | error (e : ReadError) : GainsFile key file (.error e) (.error e)
  | ok {m m' : Module} (own : m'.files.get? key = some file)
      (others : ∀ k ≠ key, m'.files.get? k = m.files.get? k)
      (rest : { m' with text := m.text, files := m.files } = m) :
      GainsFile key file (.ok m) (.ok m')

namespace GainsFile

variable {key : Text} {file : SourceFile} {r r' : Except ReadError Module}

/-- Another chunk keeps the file. -/
theorem add {m m' : Module} (gains : GainsFile key file (.ok m) (.ok m')) {chunk : Chunk}
    (other : chunk.nodeKey? ≠ some key) :
    GainsFile key file (m.add chunk) (m'.add chunk) := by
  obtain ⟨name, text, funcs, sourceFilename, files, locations, units, named⟩ := m
  obtain ⟨name', text', funcs', sourceFilename', files', locations', units', named'⟩ := m'
  obtain - | ⟨own, others, rest⟩ := gains
  obtain ⟨rfl, -, rfl, rfl, -, rfl, rfl, rfl⟩ := Module.mk.injEq .. ▸ rest
  cases chunk with
  | openHeader => exact .error _
  | openBody => exact .error _
  | define header body closing =>
    simp only [Module.add]
    cases Function.ofLines header body closing with
    | error e => exact .error e
    | ok f => exact .ok own others rfl
  | node k content lines =>
    have ne : k ≠ key := by
      rintro rfl
      exact other rfl
    simp only [Module.add, addNode]
    split
    · split <;> exact .ok own others rfl
    split
    · split
      · refine .ok ?_ (fun k' ne' => ?_) rfl
        · rw [Table.get?_set, if_neg ne.symm]
          exact own
        · rw [Table.get?_set, Table.get?_set, others k' ne']
      · exact .ok own others rfl
    · split <;> exact .ok own others rfl
  | _ => exact .ok own others rfl

/-- Other chunks keep the file. -/
theorem foldlM (gains : GainsFile key file r r') {chunks : List Chunk}
    (other : ∀ chunk ∈ chunks, chunk.nodeKey? ≠ some key) :
    GainsFile key file (r >>= chunks.foldlM Module.add) (r' >>= chunks.foldlM Module.add) := by
  induction chunks generalizing r r' with
  | nil => cases gains with
    | error e => exact .error e
    | ok own others rest => exact .ok own others rest
  | cons chunk chunks ih =>
    obtain ⟨first, later⟩ := List.forall_mem_cons.1 other
    cases gains with
    | error e => exact .error e
    | ok own others rest =>
      have stepped := add (.ok own others rest) first
      exact ih stepped later

/-- Where the instructions are located does not depend on files. -/
theorem resolved (gains : GainsFile key file r r') :
    GainsFile key file (r.map Module.resolved) (r'.map Module.resolved) := by
  cases gains with
  | error e => exact .error e
  | @ok m m' own others rest =>
    exact .ok own others (congrArg Module.resolved rest)

end GainsFile

/-- A file node is put into the table of the files if it does not hold the word for a location. -/
theorem addNode_fileContent (m : Module) (key file directory : Text) :
    m.addNode key (fileContent file directory) =
      if Text.contains "!DILocation" (fileContent file directory) then
        match SourceLocation.ofNode? (fileContent file directory) with
        | some loc => { m with locations := m.locations.set key loc }
        | none => m
      else match SourceFile.ofNode? (fileContent file directory) with
        | some file => { m with files := m.files.set key file }
        | none => m := by
  have named : Text.contains "!DIFile" (fileContent file directory) = true :=
    Text.contains_iff.2 (List.prefix_append _ _).isInfix
  unfold addNode
  exact congrArg (ite _ _) (if_pos named)

section Node

variable {digits file directory : Text} (numeral : digits ≠ [] ∧ ∀ c ∈ digits, c.isDigit)
  (printing : ∀ c ∈ file ++ directory, IsPrinting c)

include printing in
/-- A file node that is read gives its file. -/
theorem addNode_of_matched (m : Module) (key : Text) (matched : Matched 0 (file ++ directory))
    (named : ¬ Text.contains "!DILocation" (fileContent file directory) = true) :
    m.addNode key (fileContent file directory) =
      { m with files := m.files.set key ⟨file, directory⟩ } := by
  rw [addNode_fileContent, if_neg named, (ofNode?_fileContent_iff printing).2 matched]

include printing in
/-- A file node is the only way for its file to become known. -/
theorem matched_of_addNode {m : Module} {key : Text} (unknown : m.files.get? key = none)
    (known : (m.addNode key (fileContent file directory)).files.get? key =
      some ⟨file, directory⟩) : Matched 0 (file ++ directory) ∧
      ¬ Text.contains "!DILocation" (fileContent file directory) = true := by
  rw [addNode_fileContent] at known
  split at known
  · split at known <;> exact absurd (unknown.symm.trans known) (by simp)
  · rename_i named
    refine ⟨(ofNode?_fileContent_iff printing).1 ?_, named⟩
    cases found : SourceFile.ofNode? (fileContent file directory) with
    | none =>
      rw [found] at known
      exact absurd (unknown.symm.trans known) (by simp)
    | some f =>
      rw [found] at known
      exact ((Table.get?_set _ _ _ _).trans (if_pos rfl)).symm.trans known

include numeral in
/-- The node is a line. -/
theorem lines_fileNode :
    (fileNode digits file directory).lines = [fileNode digits file directory] :=
  Text.lines_of_unbroken (List.cons_ne_nil _ _)
    fun _ member => not_lineBreak_of_isPrinting (isPrinting_of_mem_fileNode numeral member)

include numeral in
/-- A text of one file node. -/
theorem ofText_fileNode (name : Text) : ofText (fileNode digits file directory) name =
    .ok (addNode { name, text := fileNode digits file directory } ('!' :: digits)
      (fileContent file directory)).resolved := by
  have chunks : Chunk.ofLines [fileNode digits file directory] =
      [.node ('!' :: digits) (fileContent file directory) [fileNode digits file directory]] := by
    rw [Chunk.ofLines_cons, next_fileNode numeral]
    simp only [takeOpen, List.map_nil, Text.join, Chunk.ofLines_nil]
  rw [ofText, lines_fileNode numeral, chunks]
  rfl

include numeral printing in
/-- A file node with paired parentheses takes no other line. -/
theorem next_fileNode_of_matched (matched : Matched 0 (file ++ directory)) (rest : List Text) :
    Chunk.next (fileNode digits file directory) rest =
      (.node ('!' :: digits) (fileContent file directory) [fileNode digits file directory],
        rest) := by
  rw [next_fileNode numeral, parenBalance_fileContent printing matched]
  cases rest <;> rfl

end Node

/-- **Which file nodes are read as they were written.** Wherever the line of a file node stands
between definitions, a text with it is read as the text without it, and the file is known under its
number unless a later node takes that, if and only if the parentheses in the name and the directory
pair up and neither holds the word for a location. -/
theorem gainsFile_iff {digits file directory : Text}
    (numeral : digits ≠ [] ∧ ∀ c ∈ digits, c.isDigit)
    (printing : ∀ c ∈ file ++ directory, IsPrinting c) :
    (∀ (text text' name : Text) (before after : List Text),
      text.lines = before ++ after →
      text'.lines = before ++ fileNode digits file directory :: after →
      (∀ chunk ∈ Chunk.ofLines before, chunk.isComplete = true) →
      (∀ chunk ∈ Chunk.ofLines after, chunk.nodeKey? ≠ some ('!' :: digits)) →
      GainsFile ('!' :: digits) ⟨file, directory⟩ (ofText text name) (ofText text' name)) ↔
    Matched 0 (file ++ directory) ∧ ¬ "!DILocation".toList <:+: file ∧
      ¬ "!DILocation".toList <:+: directory := by
  rw [← not_or, ← contains_location_iff printing]
  constructor
  · -- the text of the node alone already tells
    intro all
    have gains := all [] (fileNode digits file directory) "stdin" [] [] rfl
      (lines_fileNode numeral)
      (by simp [Chunk.ofLines_nil]) (by simp [Chunk.ofLines_nil])
    rw [ofText_fileNode numeral] at gains
    generalize ofText [] _ = r at gains
    cases gains with
    | ok own => exact matched_of_addNode printing rfl own
  · rintro ⟨matched, named⟩ text text' name before after lines lines' top last
    have alone := next_fileNode_of_matched numeral printing matched
    rw [ofText, ofText, lines, lines', Chunk.ofLines_between top alone, Chunk.ofLines_append top,
      List.foldlM_append, List.foldlM_append, show (Chunk.ofLines before).foldlM add _ = _ from
        foldlM_text { name, text } text' (Chunk.ofLines before)]
    cases (Chunk.ofLines before).foldlM add { name, text } with
    | error e => exact .error e
    | ok m =>
      have gains : GainsFile ('!' :: digits) ⟨file, directory⟩ (.ok m)
          (.ok (addNode { m with text := text' } ('!' :: digits) (fileContent file directory))) := by
        rw [addNode_of_matched printing _ _ matched named]
        refine .ok ?_ (fun k ne => ?_) rfl
        · exact (Table.get?_set _ _ _ _).trans (if_pos rfl)
        · exact (Table.get?_set _ _ _ _).trans (if_neg ne)
      exact (gains.foldlM last).resolved

/-- A file name with a quote, a backslash, commas and parentheses that pair up. -/
def oddName : Text := "a \"b\\,(c): d.c"

/-- A function and a file node. -/
def withoutOddName : Text :=
  "define void @f() \x7b\n  ret void\n\x7d\n!3 = !DIFile(filename: \"x.c\", directory: \"\")\n"

/-- The same with a node for the odd name between them. -/
def withOddName : Text :=
  "define void @f() \x7b\n  ret void\n\x7d\n" ++
    "!12 = !DIFile(filename: \"a \\22b\\5C,(c): d.c\", directory: \"/[1]\")\n" ++
    "!3 = !DIFile(filename: \"x.c\", directory: \"\")\n"

theorem gainsFile_iff_odd_name : GainsFile "!12" ⟨oddName, "/[1]"⟩
    (ofText withoutOddName) (ofText withOddName) :=
  (@gainsFile_iff "12" oddName "/[1]" (by decide) (by decide)).2
    (by decide) withoutOddName withOddName "stdin" ["define void @f() \x7b", "  ret void", "\x7d"]
    ["!3 = !DIFile(filename: \"x.c\", directory: \"\")".toList] (by decide) (by decide)
    (by decide +kernel) (by decide +kernel)

/-- A file node with an unpaired parenthesis in its name, and another one behind it. -/
def unpaired : Text :=
  "!1 = !DIFile(filename: \"a(b.c\", directory: \"/d\")\n" ++
    "!2 = !DIFile(filename: \"x.c\", directory: \"/d\")\n"

/-- The unpaired parenthesis takes the next line, and neither file is known. -/
theorem not_gainsFile_unpaired :
    (ofText unpaired).map (·.files) = .ok [] ∧
      ¬ ∀ (digits file directory : Text), digits ≠ [] ∧ (∀ c ∈ digits, c.isDigit) →
        (∀ c ∈ file ++ directory, IsPrinting c) →
        ∀ (text text' name : Text) (before after : List Text),
          text.lines = before ++ after →
          text'.lines = before ++ fileNode digits file directory :: after →
          (∀ chunk ∈ Chunk.ofLines before, chunk.isComplete = true) →
          (∀ chunk ∈ Chunk.ofLines after, chunk.nodeKey? ≠ some ('!' :: digits)) →
          GainsFile ('!' :: digits) ⟨file, directory⟩ (ofText text name) (ofText text' name) := by
  have none : (ofText unpaired).map (·.files) = .ok [] := by decide +kernel
  refine ⟨none, fun all => ?_⟩
  have gains := all "1" "a(b.c" "/d" (by decide) (by decide)
    "!2 = !DIFile(filename: \"x.c\", directory: \"/d\")\n" unpaired "stdin" []
    ["!2 = !DIFile(filename: \"x.c\", directory: \"/d\")"] (by decide) (by decide)
    (by decide +kernel) (by decide +kernel)
  cases read : ofText unpaired with
  | error e =>
    rw [read] at none
    cases none
  | ok m =>
    rw [read] at gains none
    generalize ofText _ _ = r at gains
    cases gains with
    | ok own =>
      rw [show m.files = [] from Except.ok.inj none] at own
      cases own

end Module

end Assembly

end FlowReport
