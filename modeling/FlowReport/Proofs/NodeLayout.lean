import FlowReport.Proofs.Numerals
import FlowReport.Proofs.Occurrence
import FlowReport.Proofs.Signatures

/-!
# The layout of metadata nodes

A metadata node goes on over the lines behind it for as long as one of its parentheses is open,
whatever these lines look like, and its lines are put together again with a blank between them. So a
node on one line can be laid out over several: where two words have one blank between them, a line
may end, and the module that is read stays the same.
-/

namespace FlowReport.Assembly

/-! ## Parentheses -/

/-- Text with matched parentheses can be cut anywhere: those in front leave some open, and the others
close them. -/
theorem Matched.split {depth : Nat} {front rest : Text} (matched : Matched depth (front ++ rest)) :
    ∃ left : Nat, (left : Int) = depth + parenBalance front ∧ Matched left rest := by
  induction front generalizing depth with
  | nil => exact ⟨depth, (Int.add_zero _).symm, matched⟩
  | cons c front ih =>
    have first : parenBalance (c :: front) = parenBalance [c] + parenBalance front :=
      parenBalance_append [c] front
    rw [List.cons_append, Matched] at matched
    split at matched
    · rename_i opening
      subst opening
      obtain ⟨left, balance, rest⟩ := ih matched
      rw [show parenBalance ['('] = 1 from rfl] at first
      exact ⟨left, by omega, rest⟩
    split at matched
    · rename_i closing
      subst closing
      obtain ⟨left, balance, rest⟩ := ih matched.2
      rw [show parenBalance [')'] = -1 from rfl] at first
      have := matched.1
      exact ⟨left, by omega, rest⟩
    · rename_i opening closing
      obtain ⟨left, balance, rest⟩ := ih matched
      have other : parenBalance [c] = 0 := by simp [parenBalance, opening, closing]
      exact ⟨left, by omega, rest⟩

/-- Matched parentheses are balanced. -/
theorem parenBalance_of_matched {depth : Nat} {s : Text} (matched : Matched depth s) :
    parenBalance s = -depth := by
  rw [← List.append_nil s] at matched
  obtain ⟨left, balance, rfl⟩ := matched.split
  omega

/-- In parentheses, a text with matched ones is open up to its end. -/
theorem open_of_matched {body front : Text} (matched : Matched 0 body)
    (inside : front <+: parenthesized body) (nonempty : front ≠ [])
    (proper : front ≠ parenthesized body) : 0 < parenBalance front := by
  obtain ⟨c, front, rfl⟩ := List.exists_cons_of_ne_nil nonempty
  obtain ⟨rfl, behind⟩ := List.cons_prefix_cons.1 inside
  have within : front <+: body := by
    rcases List.prefix_concat_iff.1 behind with rfl | within
    · exact absurd rfl proper
    · exact within
  obtain ⟨rest, rfl⟩ := within
  obtain ⟨left, balance, -⟩ := matched.split
  rw [show parenBalance ('(' :: front) = parenBalance ['('] + parenBalance front from
    parenBalance_append ['('] front, show parenBalance ['('] = 1 from rfl]
  omega

theorem parenBalance_parenthesized {body : Text} (matched : Matched 0 body) :
    parenBalance (parenthesized body) = 0 := by
  rw [parenthesized, ← List.singleton_append, parenBalance_append, parenBalance_append,
    parenBalance_of_matched matched]
  decide

/-! ## The first line of a node -/

/-- The line that defines a node under a number. -/
def nodeLine (digits content : Text) : Text := '!' :: (digits ++ ' ' :: '=' :: ' ' :: content)

section Line

variable {digits content right : Text}
  (numeral : digits ≠ [] ∧ ∀ c ∈ digits, isDecimal c = true) (solid : Solid content)

theorem Solid.nodeLine {digits content : Text} (solid : Solid content) :
    Solid (nodeLine digits content) := by
  have ends := (Solid.singleton (c := '!') (by decide)).append (digits ++ [' ', '=', ' ']) solid
  simpa [Assembly.nodeLine] using ends

include numeral solid in
theorem node?_nodeLine : Chunk.node? (nodeLine digits content) = some ('!' :: digits, content) := by
  have key := Text.takeWhile_append_cons numeral.2 (c := ' ') (by decide) ('=' :: ' ' :: content)
  have rest := Text.dropWhile_append_cons numeral.2 (c := ' ') (by decide) ('=' :: ' ' :: content)
  have ref : metadataRef? (nodeLine digits content) =
      some ('!' :: digits, ' ' :: '=' :: ' ' :: content) := by
    obtain ⟨d, ds, rfl⟩ := List.exists_cons_of_ne_nil numeral.1
    rw [nodeLine, metadataRef?, key, rest]
  have padded : Text.Padded content (' ' :: content) := ⟨[' '], [], by decide, by simp⟩
  rw [Chunk.node?, ref]
  exact congrArg (fun content => some ('!' :: digits, content)) (padded.trim.trans solid.trim.2)

include numeral solid in
/-- What does not go on with a brace is no list of references. -/
theorem named?_nodeLine (unbraced : Text.dropPrefix? "!\x7b" content = none) :
    Chunk.named? (nodeLine digits content) = none := by
  obtain ⟨⟨c, head, nonblank⟩, -⟩ := solid
  obtain ⟨more, rfl⟩ := List.head?_eq_some_iff.1 head
  rw [Chunk.named?, nodeLine, Text.dropPrefix?, if_pos rfl, Text.dropPrefix?, Option.bind_eq_bind,
    Option.bind_some]
  split
  · rfl
  -- the name is read up to the first digit that is not an ASCII one, or up to the blank
  cases wide : digits.dropWhile isBare with
  | nil =>
    have bare : ∀ d ∈ digits, isBare d = true := List.dropWhile_eq_nil_iff.1 wide
    rw [Text.dropWhile_append_cons bare (by decide)]
    show (Text.dropPrefix? "!\x7b" (Text.dropBlank (c :: more))).bind _ = none
    rw [Text.dropBlank_cons nonblank, unbraced, Option.bind_none]
  | cons d ds =>
    have digit : isDecimal d = true :=
      numeral.2 d ((List.dropWhile_suffix isBare).subset (wide ▸ List.mem_cons_self))
    have other : d ≠ '=' := by
      rintro rfl
      exact absurd digit (by decide)
    rw [List.dropWhile_append, wide]
    show (Text.dropPrefix? ['='] (Text.dropBlank (d :: _))).bind _ = none
    rw [Text.dropBlank_cons (not_blank_of_isDecimal digit), Text.dropPrefix?, if_neg other.symm,
      Option.bind_none]

include numeral solid in
/-- The line begins a node, which ends where its parentheses do. Blanks behind it do not matter. -/
theorem next_nodeLine (unbraced : Text.dropPrefix? "!\x7b" content = none)
    (debug : namesDebugNode content = true) (blank : ∀ c ∈ right, isBlank c = true)
    (rest : List Text) : Chunk.next (nodeLine digits content ++ right) rest =
      let more := takeOpen Chunk.weight (parenBalance content) rest
      (.node ('!' :: digits) (Text.join [' '] (content :: more.1.map Text.trim))
        ((nodeLine digits content ++ right) :: more.1), more.2) := by
  have trimmed : (nodeLine digits content ++ right).trim = nodeLine digits content := by
    have padded : Text.Padded (nodeLine digits content) (nodeLine digits content ++ right) :=
      ⟨[], right, blank, rfl⟩
    exact padded.trim.trans solid.nodeLine.trim.2
  have said : ¬ (nodeLine digits content = [] ∨ (nodeLine digits content).head? = some ';') := by
    rw [not_or, show (nodeLine digits content).head? = some '!' from rfl]
    exact ⟨List.cons_ne_nil _ _, by decide⟩
  have define : (Text.dropPrefix? "define " (nodeLine digits content)).isSome = false := rfl
  have source : Chunk.sourceFilename? (nodeLine digits content) = none := rfl
  simp only [Chunk.next, trimmed, said, if_false, define, Bool.false_eq_true, source,
    named?_nodeLine numeral solid unbraced, node?_nodeLine numeral solid, debug, if_true]

end Line

/-! ## The lines behind it -/

/-- Lines are taken up to the one that closes what is open. -/
theorem takeOpen_rows {pieces rows : List Text} (padded : List.Forall₂ Text.Padded pieces rows)
    (solid : ∀ p ∈ pieces, Solid p) (balance : Int)
    (opened : ∀ front, front <+: pieces.flatMap (' ' :: ·) → front ≠ pieces.flatMap (' ' :: ·) →
      0 < balance + parenBalance front)
    (closed : balance + parenBalance (pieces.flatMap (' ' :: ·)) = 0) (after : List Text) :
    takeOpen Chunk.weight balance (rows ++ after) = (rows, after) := by
  induction padded generalizing balance with
  | nil =>
    have shut : ¬ 0 < balance := by
      have : balance + 0 = 0 := closed
      omega
    cases after with
    | nil => rfl
    | cons line after => simp [takeOpen, shut]
  | @cons piece row pieces rows head tail ih =>
    obtain ⟨own, others⟩ := List.forall_mem_cons.1 solid
    have weight : Chunk.weight row = parenBalance piece := by
      rw [Chunk.weight, head.trim, own.trim.2]
    have first : ∀ front : Text, parenBalance (' ' :: (piece ++ front)) =
        parenBalance piece + parenBalance front := by
      intro front
      rw [← List.singleton_append, parenBalance_append, parenBalance_append]
      exact Int.zero_add _
    have here : 0 < balance := by
      have start := opened [] List.nil_prefix (by simp)
      exact (Int.add_zero balance) ▸ start
    rw [List.flatMap_cons, List.cons_append] at opened closed
    have taken := ih others (balance + parenBalance piece) (fun front inside proper => by
      have later := opened (' ' :: (piece ++ front))
        (List.cons_prefix_cons.2 ⟨rfl, (List.prefix_append_right_inj piece).2 inside⟩)
        (fun same => proper (List.append_cancel_left (List.cons.inj same).2))
      rw [first] at later
      omega) (by rw [first] at closed; omega)
    rw [List.cons_append, takeOpen, if_pos here, weight, taken]

/-! ## Layouts -/

/-- The second text is the first one with line feeds, and blanks around them, for some of the blanks
that stand alone between two other characters. -/
inductive LaidOut : Text → Text → Prop where
  | whole (s : Text) : LaidOut s s
  | wrapped {front s t behind before : Text} (last : ∃ c ∈ front.getLast?, isBlank c = false)
      (first : ∃ c ∈ s.head?, isBlank c = false)
      (blanks : ∀ c ∈ behind ++ before, c = ' ' ∨ c = '\t') (rest : LaidOut s t) :
      LaidOut (front ++ ' ' :: s) (front ++ (behind ++ '\n' :: (before ++ t)))

/-- A text cut into pieces at blanks, and one with the pieces in rows of their own. The first row has
nothing in front of its piece. -/
structure Rows (s t piece : Text) (pieces : List Text) (right : Text) (rows : List Text) : Prop where
  source : s = piece ++ pieces.flatMap (' ' :: ·)
  laid : t = piece ++ (right ++ rows.flatMap ('\n' :: ·))
  blank : ∀ c ∈ right, isBlank c = true
  padded : List.Forall₂ Text.Padded pieces rows
  solid : ∀ p ∈ piece :: pieces, Solid p
  unbroken : ∀ r ∈ (piece ++ right) :: rows, Text.Unbroken r

theorem LaidOut.exists_rows {s t : Text} (layout : LaidOut s t) (solid : Solid s)
    (unbroken : Text.Unbroken s) : ∃ piece pieces right rows, Rows s t piece pieces right rows := by
  induction layout with
  | whole s =>
    exact ⟨s, [], [], [], by simp, by simp, by simp, .nil, by simpa using solid,
      by simpa using unbroken⟩
  | @wrapped front s t behind before last first blanks _ ih =>
    obtain ⟨own, others⟩ := List.forall_mem_append.1 unbroken
    have start : ∃ c ∈ front.head?, isBlank c = false := by
      obtain ⟨c, head, nonblank⟩ := solid.1
      cases front with
      | nil =>
        obtain ⟨_, none, -⟩ := last
        cases none
      | cons d front => exact ⟨c, head, nonblank⟩
    have stop : ∃ c ∈ s.getLast?, isBlank c = false := by
      obtain ⟨d, head, -⟩ := first
      obtain ⟨more, rfl⟩ := List.head?_eq_some_iff.1 head
      have ends := solid.2
      rwa [List.getLast?_append_cons, List.getLast?_cons_cons] at ends
    obtain ⟨piece, pieces, right, rows, split⟩ :=
      ih ⟨first, stop⟩ (List.forall_mem_cons.1 others).2
    obtain ⟨here, later⟩ := List.forall_mem_cons.1 split.unbroken
    have pads : ∀ c ∈ behind ++ before, isBlank c = true ∧ isLineBreak c = false := by
      intro c member
      rcases blanks c member with rfl | rfl <;> decide
    obtain ⟨padsBehind, padsBefore⟩ := List.forall_mem_append.1 pads
    exact ⟨front, piece :: pieces, behind, (before ++ (piece ++ right)) :: rows,
      { source := by rw [split.source, List.flatMap_cons, List.cons_append]
        laid := by
          rw [split.laid, List.flatMap_cons]
          simp only [List.append_assoc, List.cons_append]
        blank := fun c member => (padsBehind c member).1
        padded := .cons ⟨before, right, List.forall_mem_append.2
          ⟨fun c member => (padsBefore c member).1, split.blank⟩, rfl⟩ split.padded
        solid := List.forall_mem_cons.2 ⟨⟨start, last⟩, split.solid⟩
        unbroken := List.forall_mem_cons.2
          ⟨List.forall_mem_append.2 ⟨own, fun c member => (padsBehind c member).2⟩,
            List.forall_mem_cons.2 ⟨List.forall_mem_append.2
              ⟨fun c member => (padsBefore c member).2, here⟩, later⟩⟩ }⟩

theorem Rows.map_trim {s t piece right : Text} {pieces rows : List Text}
    (split : Rows s t piece pieces right rows) : rows.map Text.trim = pieces := by
  have solid := (List.forall_mem_cons.1 split.solid).2
  have padded := split.padded
  clear split
  induction padded with
  | nil => rfl
  | @cons p r ps rs head tail ih =>
    obtain ⟨own, others⟩ := List.forall_mem_cons.1 solid
    rw [List.map_cons, head.trim, own.trim.2, ih others]

theorem join_eq_flatMap (piece : Text) (pieces : List Text) :
    Text.join [' '] (piece :: pieces) = piece ++ pieces.flatMap (' ' :: ·) := by
  induction pieces generalizing piece with
  | nil => simp [Text.join]
  | cons next pieces ih => simp [Text.join, ih]

/-! ## Debug metadata -/

/-- The kinds of debug metadata nodes. -/
inductive DebugKind where
  | location
  | file
  | unit

namespace DebugKind

/-- The word for a kind. -/
def word : DebugKind → Text
  | location => "!DILocation"
  | file => "!DIFile"
  | unit => "!DICompileUnit"

/-- What stands in front of the parenthesis of a node. -/
def head (kind : DebugKind) (isDistinct : Bool) : Text :=
  if isDistinct then "distinct " ++ kind.word else kind.word

variable (kind : DebugKind) (isDistinct : Bool)

theorem solid_head : Solid (kind.head isDistinct) := by
  cases isDistinct <;> cases kind <;> exact ⟨⟨_, rfl, rfl⟩, _, rfl, rfl⟩

theorem unbroken_head : Text.Unbroken (kind.head isDistinct) := by
  cases isDistinct <;> cases kind <;> decide

theorem parenBalance_head : parenBalance (kind.head isDistinct) = 0 := by
  cases isDistinct <;> cases kind <;> decide

theorem unbraced_head (s : Text) :
    Text.dropPrefix? "!\x7b" (kind.head isDistinct ++ s) = none := by
  cases isDistinct <;> cases kind <;> rfl

theorem namesDebugNode_head (s : Text) : namesDebugNode (kind.head isDistinct ++ s) = true := by
  have inside : kind.word <:+: kind.head isDistinct ++ s := by
    cases isDistinct with
    | false => exact (List.prefix_append _ s).isInfix
    | true => exact ⟨"distinct ", s, rfl⟩
  have named : Text.contains kind.word (kind.head isDistinct ++ s) = true :=
    Text.contains_iff.2 inside
  simp only [namesDebugNode, Bool.or_eq_true]
  cases kind with
  | location => exact .inl (.inr named)
  | file => exact .inl (.inl named)
  | unit => exact .inr named

end DebugKind

namespace Module

section LaidOut

variable {digits body laid : Text} {kind : DebugKind} {isDistinct : Bool}
  (numeral : digits ≠ [] ∧ ∀ c ∈ digits, isDecimal c = true) (matched : Matched 0 body)

include numeral matched in
/-- The rows of a node are taken, and no line behind them. -/
theorem next_rows {piece right : Text} {pieces rows : List Text}
    (split : Rows (parenthesized body) laid piece pieces right rows) (after : List Text) :
    Chunk.next (nodeLine digits (kind.head isDistinct ++ piece) ++ right) (rows ++ after) =
      (.node ('!' :: digits) (kind.head isDistinct ++ parenthesized body)
        ((nodeLine digits (kind.head isDistinct ++ piece) ++ right) :: rows), after) := by
  obtain ⟨own, others⟩ := List.forall_mem_cons.1 split.solid
  have weight : parenBalance (kind.head isDistinct ++ piece) = parenBalance piece := by
    rw [parenBalance_append, kind.parenBalance_head, Int.zero_add]
  have taken := takeOpen_rows split.padded others (parenBalance piece)
    (fun front inside proper => by
      rw [← parenBalance_append]
      refine open_of_matched matched ?_ (by simp [own.trim.1]) ?_
      · rw [split.source]
        exact (List.prefix_append_right_inj piece).2 inside
      · rw [split.source]
        exact fun same => proper (List.append_cancel_left same))
    (by rw [← parenBalance_append, ← split.source, parenBalance_parenthesized matched]) after
  have solid : Solid (kind.head isDistinct ++ piece) :=
    (kind.solid_head isDistinct).append [] own
  rw [next_nodeLine numeral solid
    (kind.unbraced_head isDistinct piece) (kind.namesDebugNode_head isDistinct piece) split.blank,
    weight, taken]
  simp only [split.map_trim, join_eq_flatMap, List.append_assoc, ← split.source]

variable {front back : Text} (unbroken : Text.Unbroken body)
  (begins : ∀ c ∈ front.getLast?, isLineBreak c = true)
  (ends : ∀ c ∈ back.head?, isLineBreak c = true)
  (top : ∀ chunk ∈ Chunk.ofLines front.lines, chunk.isComplete = true)

variable (kind isDistinct) in
include numeral matched unbroken begins ends top in
/-- However a node is laid out, it is the same node, and what stands around it is read as it is. -/
theorem exists_ofLines (layout : LaidOut (parenthesized body) laid) :
    ∃ ls, Chunk.ofLines
        (front ++ (nodeLine digits (kind.head isDistinct ++ laid) ++ back)).lines =
      Chunk.ofLines front.lines ++
        .node ('!' :: digits) (kind.head isDistinct ++ parenthesized body) ls ::
          Chunk.ofLines back.lines.tail := by
  have solid : Solid (parenthesized body) :=
    (Solid.singleton (by decide)).append body (.singleton (by decide))
  have own : Text.Unbroken (parenthesized body) := by
    refine List.forall_mem_cons.2 ⟨by decide, List.forall_mem_append.2 ⟨unbroken, by decide⟩⟩
  obtain ⟨piece, pieces, right, rows, split⟩ := layout.exists_rows solid own
  obtain ⟨here, later⟩ := List.forall_mem_cons.1 split.unbroken
  have digit : Text.Unbroken digits := fun c member => by
    by_contra isBreak
    have blank := isBlank_of_isLineBreak (by simpa using isBreak)
    rw [not_blank_of_isDecimal (numeral.2 c member)] at blank
    cases blank
  have first : Text.Unbroken (nodeLine digits (kind.head isDistinct ++ piece) ++ right) := by
    simp only [Text.Unbroken, nodeLine, List.cons_append, List.append_assoc, List.forall_mem_cons,
      List.forall_mem_append] at here ⊢
    exact ⟨by decide, digit, by decide, by decide, by decide, kind.unbroken_head isDistinct, here⟩
  have nonempty : ∀ r ∈ rows, r ≠ [] := by
    rintro _ member rfl
    have piece : [] ∈ pieces := split.map_trim ▸ List.mem_map_of_mem member
    exact (split.solid _ (List.mem_cons_of_mem _ piece)).trim.1 rfl
  have whole : nodeLine digits (kind.head isDistinct ++ laid) ++ back =
      (nodeLine digits (kind.head isDistinct ++ piece) ++ right) ++
        (rows.flatMap ('\n' :: ·) ++ back) := by
    simp only [split.laid, nodeLine, List.append_assoc, List.cons_append]
  have parted : Text.Parted front (nodeLine digits (kind.head isDistinct ++ laid) ++ back) :=
    fun c last => ⟨begins c last, fun _ => by simp [nodeLine]⟩
  have lines := Text.lines_rows (List.forall_mem_cons.2
    ⟨⟨by simp [nodeLine], first⟩, fun r member => ⟨nonempty r member, later r member⟩⟩) ends
  refine ⟨(nodeLine digits (kind.head isDistinct ++ piece) ++ right) :: rows, ?_⟩
  rw [Text.lines_append parted, whole, lines, Chunk.ofLines_append top, Chunk.ofLines_cons,
    next_rows numeral matched split]

include numeral matched unbroken begins ends top in
/-- **The layout of a debug metadata node does not matter.** Wherever its line stands between
definitions, some of the blanks behind its first parenthesis that stand alone between two other
characters can be replaced by line feeds with blanks around them: the module that is read from the
text is the same, or the error is. -/
theorem ofText_laidOut (layout : LaidOut (parenthesized body) laid) (name : Text) :
    ofText (front ++ (nodeLine digits (kind.head isDistinct ++ laid) ++ back)) name =
      (ofText (front ++ (nodeLine digits (kind.head isDistinct ++ parenthesized body) ++ back))
        name).map fun m =>
          { m with text := front ++ (nodeLine digits (kind.head isDistinct ++ laid) ++ back) } := by
  obtain ⟨ls, laidOut⟩ := exists_ofLines kind isDistinct numeral matched unbroken begins ends top
    layout
  obtain ⟨ls', whole⟩ := exists_ofLines kind isDistinct numeral matched unbroken begins ends top
    (.whole (parenthesized body))
  have same : ∀ m : Module, (Chunk.ofLines front.lines ++ .node ('!' :: digits)
        (kind.head isDistinct ++ parenthesized body) ls :: Chunk.ofLines back.lines.tail).foldlM
          add m =
      (Chunk.ofLines front.lines ++ .node ('!' :: digits)
        (kind.head isDistinct ++ parenthesized body) ls' :: Chunk.ofLines back.lines.tail).foldlM
          add m := fun m => by
    rw [List.foldlM_append, List.foldlM_append]
    rfl
  rw [ofText, ofText, laidOut, whole, same]
  generalize front ++ (nodeLine digits (kind.head isDistinct ++ laid) ++ back) = text
  generalize front ++ (nodeLine digits (kind.head isDistinct ++ parenthesized body) ++ back) = text'
  rw [show ∀ chunks : List Chunk, chunks.foldlM add { name, text } = _ from
    foldlM_text { name, text := text' } text]
  generalize List.foldlM add { name, text := text' } _ = read
  cases read <;> rfl

end LaidOut

/-- The fields of a unit, with a comma and matched parentheses between quotes. -/
def unitFields : Text := "language: DW_LANG_C99, file: !1, producer: \"clang (14), x\""

/-- The same in parentheses, over four lines. -/
def wrappedFields : Text :=
  "(language:\n  DW_LANG_C99, file: \t\n!1, producer: \"clang\n(14), x\")"

theorem laidOut_wrappedFields : LaidOut (parenthesized unitFields) wrappedFields :=
  @LaidOut.wrapped "(language:" _ _ [] "  " ⟨_, rfl, rfl⟩ ⟨_, rfl, rfl⟩ (by decide)
    (@LaidOut.wrapped "DW_LANG_C99, file:" _ _ " \t" [] ⟨_, rfl, rfl⟩ ⟨_, rfl, rfl⟩ (by decide)
      (@LaidOut.wrapped "!1, producer: \"clang" _ _ [] [] ⟨_, rfl, rfl⟩ ⟨_, rfl, rfl⟩ (by decide)
        (.whole "(14), x\")")))

/-- A function in front of the unit and its file behind it. -/
def aroundUnit (content : Text) : Text :=
  "define void @f() \x7b\n  ret void\n\x7d\n".toList ++
    (nodeLine ['0'] (DebugKind.unit.head true ++ content) ++
      "\n!1 = !DIFile(filename: \"a.c\")\n".toList)

theorem ofText_laidOut_unit :
    (ofText (aroundUnit wrappedFields)).map (fun m => (m.units, m.files.length)) =
        .ok ([(['!', '0'], ⟨some ['!', '1']⟩)], 1) ∧
      ofText (aroundUnit wrappedFields) = (ofText (aroundUnit (parenthesized unitFields))).map
        fun m => { m with text := aroundUnit wrappedFields } := by
  have feed : ∀ c ∈ some '\n', isLineBreak c = true := by simp; decide
  refine ⟨by decide +kernel, ?_⟩
  refine ofText_laidOut (by decide) (by decide) (by decide) ?_ ?_ (by decide +kernel)
    laidOut_wrappedFields "stdin" <;> exact feed

end Module

end FlowReport.Assembly
