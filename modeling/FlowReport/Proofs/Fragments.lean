import FlowReport.Proofs.EndedLines
import FlowReport.Proofs.Occurrence

/-!
# The lines of a fragment

A fragment is looked up by its characters and its lines are counted by line feeds, while the lines
of a range are cut out of a text at its line breaks. The two agree where line feeds are the only
breaks: a range that was found holds whole lines of the text, and the first occurrence of the
fragment reaches from within the first of them to within the last one.
-/

namespace FlowReport

/-- A stretch of a list, by the positions of its two ends. -/
theorem slice_middle {α : Type} (front middle back : List α) :
    slice (front ++ middle ++ back) front.length (front.length + middle.length) = middle := by
  have start : clampPosition (front ++ middle ++ back).length front.length = front.length := by
    rw [clampPosition, if_neg (by omega), Int.toNat_natCast, List.length_append, List.length_append]
    omega
  have stop : clampPosition (front ++ middle ++ back).length (front.length + middle.length) =
      (front ++ middle).length := by
    rw [clampPosition, if_neg (by omega), List.length_append, List.length_append]
    omega
  rw [slice, start, stop, List.take_left, List.drop_left]

namespace Text

/-- The first occurrence of a part in a text, by what stands before it and behind it. -/
structure FirstIn (part s before after : Text) : Prop where
  whole : before ++ part ++ after = s
  first : ∀ u v, u ++ part ++ v = s → before.length ≤ u.length

/-- The line that a place in a text is on. -/
def lineAt (s : Text) (place : Nat) : Nat := (s.take place).count '\n' + 1

/-- The first occurrence of a part touches a line: a character of it is on the line, or its place
is, if it has no characters. -/
def Touches (part s : Text) (line : Nat) : Prop :=
  ∃ before after, FirstIn part s before after ∧
    ∃ i, (i < part.length ∨ i = 0) ∧ line = lineAt s (before.length + i)

variable {part s before after : Text}

/-- The search cuts a text before the first occurrence. -/
theorem cutBefore?_iff_firstIn :
    cutBefore? part s = some (before, part ++ after) ↔ FirstIn part s before after := by
  rw [cutBefore?_eq_some_iff]
  constructor
  · rintro ⟨whole, -, first⟩
    refine ⟨by rw [List.append_assoc, whole], ?_⟩
    intro u v same
    exact first u (part ++ v) (by rw [← List.append_assoc, same]) (List.prefix_append part v)
  · rintro ⟨whole, first⟩
    refine ⟨by rw [← List.append_assoc, whole], List.prefix_append part after, ?_⟩
    rintro u _ same ⟨v, rfl⟩
    exact first u v (by rw [List.append_assoc, same])

theorem exists_firstIn (h : part <:+: s) : ∃ before after, FirstIn part s before after := by
  obtain ⟨u, v, same⟩ := h
  rw [List.append_assoc] at same
  obtain ⟨before, found, cut⟩ := exists_cutBefore? same (List.prefix_append part v)
  obtain ⟨after, rfl⟩ := (cutBefore?_eq_some_iff.1 cut).2.1
  exact ⟨before, after, cutBefore?_iff_firstIn.1 cut⟩

theorem FirstIn.isInfix (h : FirstIn part s before after) : part <:+: s :=
  ⟨before, after, h.whole⟩

/-- There is one first occurrence. -/
theorem FirstIn.unique {before' after' : Text} (h : FirstIn part s before after)
    (h' : FirstIn part s before' after') : before = before' ∧ after = after' := by
  have length : before.length = before'.length :=
    Nat.le_antisymm (h.first _ _ h'.whole) (h'.first _ _ h.whole)
  have same : before ++ (part ++ after) = before' ++ (part ++ after') := by
    rw [← List.append_assoc, ← List.append_assoc, h.whole, h'.whole]
  obtain ⟨rfl, behind⟩ := List.append_inj same length
  exact ⟨rfl, List.append_cancel_left behind⟩

/-- An empty part is met at the front. -/
theorem FirstIn.before_eq_nil (h : FirstIn [] s before after) : before = [] :=
  List.length_eq_zero_iff.1 (Nat.le_zero.1 (h.first [] s rfl))

/-! ## Lines that are touched -/

/-- A last character that is no line feed does not count. -/
theorem count_dropLast (h : s.getLast? ≠ some '\n') : s.dropLast.count '\n' = s.count '\n' := by
  rcases List.eq_nil_or_concat s with rfl | ⟨front, c, rfl⟩
  · rfl
  · rw [List.concat_eq_append, List.getLast?_concat, ne_eq, Option.some.injEq] at h
    rw [List.concat_eq_append, List.dropLast_concat, List.count_append,
      List.count_eq_zero_of_not_mem (show '\n' ∉ [c] by simpa using Ne.symm h), Nat.add_zero]

/-- The line feeds of a text come one by one. -/
theorem exists_count_take {k : Nat} (h : k ≤ s.count '\n') :
    ∃ i ≤ s.length, (s.take i).count '\n' = k := by
  induction s generalizing k with
  | nil => exact ⟨0, le_rfl, (Nat.le_zero.1 h).symm⟩
  | cons c s ih =>
    by_cases none : k = 0
    · exact ⟨0, Nat.zero_le _, none.symm⟩
    by_cases feed : c = '\n'
    · rw [feed, List.count_cons_self] at h
      obtain ⟨i, inside, count⟩ := ih (k := k - 1) (by omega)
      refine ⟨i + 1, Nat.succ_le_succ inside, ?_⟩
      rw [feed, List.take_succ_cons, List.count_cons_self, count]
      omega
    · rw [List.count_cons_of_ne feed] at h
      obtain ⟨i, inside, count⟩ := ih h
      refine ⟨i + 1, Nat.succ_le_succ inside, ?_⟩
      rw [List.take_succ_cons, List.count_cons_of_ne feed, count]

/-- The first occurrence touches the line on which it begins, and one more for each line feed before
its last character. -/
theorem FirstIn.touches_iff (h : FirstIn part s before after) {line : Nat} :
    Touches part s line ↔ before.count '\n' + 1 ≤ line ∧
      line ≤ before.count '\n' + 1 + part.dropLast.count '\n' := by
  -- on which line a character of the part is, by the part alone
  have inside : ∀ i, (i < part.length ∨ i = 0) → i ≤ part.dropLast.length ∧
      lineAt s (before.length + i) = before.count '\n' + (part.dropLast.take i).count '\n' + 1 := by
    intro i hi
    have short : i ≤ part.dropLast.length := by
      rw [List.length_dropLast]
      omega
    refine ⟨short, ?_⟩
    have front : part.dropLast.take i = part.take i := by
      rw [List.dropLast_eq_take, List.take_take, Nat.min_eq_left]
      rwa [List.length_dropLast] at short
    rw [lineAt, ← h.whole, List.append_assoc, List.take_length_add_append, List.take_append_of_le_length
      (by omega), List.count_append, front]
  constructor
  · rintro ⟨before', after', h', i, hi, rfl⟩
    obtain ⟨rfl, rfl⟩ := h.unique h'
    rw [(inside i hi).2]
    have := (List.take_sublist i part.dropLast).count_le '\n'
    omega
  · rintro ⟨low, high⟩
    obtain ⟨i, short, count⟩ := exists_count_take (s := part.dropLast)
      (k := line - (before.count '\n' + 1)) (by omega)
    have hi : i < part.length ∨ i = 0 := by
      rw [List.length_dropLast] at short
      omega
    refine ⟨before, after, h, i, hi, ?_⟩
    rw [(inside i hi).2, count]
    omega

/-! ## Whole lines -/

/-- The end of a text from the beginning of its last line on. -/
theorem exists_lineStart (s : Text) : ∃ front u, s = front ++ u ∧ Ended front ∧ '\n' ∉ u := by
  induction s with
  | nil => exact ⟨[], [], rfl, .inl rfl, List.not_mem_nil⟩
  | cons c s ih =>
    obtain ⟨front, u, rfl, ended, unbroken⟩ := ih
    cases front with
    | nil =>
      by_cases feed : c = '\n'
      · exact ⟨[c], u, rfl, .inr (by rw [feed]; rfl), unbroken⟩
      · refine ⟨[], c :: u, rfl, .inl rfl, ?_⟩
        rw [List.mem_cons, not_or]
        exact ⟨Ne.symm feed, unbroken⟩
    | cons d front =>
      refine ⟨c :: d :: front, u, rfl, .inr ?_, unbroken⟩
      rw [List.getLast?_cons_cons]
      exact ended.resolve_left (List.cons_ne_nil _ _)

/-- The front of a text up to the end of its first line. -/
theorem exists_lineEnd (s : Text) : ∃ v back, s = v ++ back ∧ '\n' ∉ v.dropLast ∧
    (v.getLast? = some '\n' ∨ back = []) := by
  induction s with
  | nil => exact ⟨[], [], rfl, List.not_mem_nil, .inr rfl⟩
  | cons c s ih =>
    by_cases feed : c = '\n'
    · exact ⟨[c], s, rfl, List.not_mem_nil, .inl (by rw [feed]; rfl)⟩
    · obtain ⟨v, back, rfl, unbroken, ends⟩ := ih
      refine ⟨c :: v, back, rfl, ?_, ?_⟩
      · cases v with
        | nil => exact List.not_mem_nil
        | cons d v =>
          rw [List.dropLast_cons_of_ne_nil (List.cons_ne_nil _ _), List.mem_cons, not_or]
          exact ⟨Ne.symm feed, unbroken⟩
      · cases v with
        | nil => exact .inr (ends.resolve_left nofun)
        | cons d v =>
          rw [List.getLast?_cons_cons]
          exact ends

/-- What is left of the line on which a part ends: nothing behind a line feed. -/
theorem exists_lineRest (part after : Text) : ∃ v back, after = v ++ back ∧
    (part.getLast? = some '\n' → v = []) ∧ '\n' ∉ v.dropLast ∧
      ((part ++ v).getLast? = some '\n' ∨ back = []) := by
  by_cases ends : part.getLast? = some '\n'
  · exact ⟨[], after, rfl, fun _ => rfl, List.not_mem_nil, .inl (by rwa [List.append_nil])⟩
  · obtain ⟨v, back, rfl, unbroken, ended⟩ := exists_lineEnd after
    refine ⟨v, back, rfl, fun h => absurd h ends, unbroken, ended.imp_left fun h => ?_⟩
    rw [List.getLast?_append, h]
    rfl

/-- Between the beginning of its first line and the end of its last one, a part brings all line
feeds but the last. -/
theorem count_dropLast_around {u v : Text} (left : '\n' ∉ u)
    (none : part.getLast? = some '\n' → v = []) (right : '\n' ∉ v.dropLast) :
    (u ++ part ++ v).dropLast.count '\n' = part.dropLast.count '\n' := by
  have front : u.count '\n' = 0 := List.count_eq_zero_of_not_mem left
  by_cases rest : v = []
  · subst rest
    rw [List.append_nil]
    by_cases empty : part = []
    · subst empty
      rw [List.append_nil, List.dropLast_nil, List.count_nil, ← Nat.le_zero, ← front]
      exact (List.dropLast_sublist u).count_le '\n'
    · rw [List.dropLast_append_of_ne_nil empty, List.count_append, front, Nat.zero_add]
  · rw [List.dropLast_append_of_ne_nil rest, List.count_append, List.count_append, front,
      List.count_eq_zero_of_not_mem right, count_dropLast fun h => rest (none h)]
    omega

end Text

namespace LineRange

open Text

variable {container fragment : Text} {r : LineRange}

/-- The range lies within lines that are counted from one. -/
structure Within (r : LineRange) (count : Nat) : Prop where
  positive : 1 ≤ r.first
  ordered : r.first ≤ r.last
  bounded : r.last ≤ count

theorem count_withoutFinalBreak_eq (s : Text) :
    (withoutFinalBreak s).count '\n' = s.dropLast.count '\n' := by
  unfold withoutFinalBreak
  split
  · rfl
  · exact (count_dropLast ‹_›).symm

/-- What is found is the first occurrence. -/
theorem locate?_eq_some_iff : locate? container fragment = some r ↔
    ∃ before after, FirstIn fragment container before after ∧
      r = ⟨before.count '\n' + 1, before.count '\n' + 1 + fragment.dropLast.count '\n'⟩ := by
  rw [locate?, Option.map_eq_some_iff]
  constructor
  · rintro ⟨⟨before, found⟩, cut, rfl⟩
    obtain ⟨after, rfl⟩ := (cutBefore?_eq_some_iff.1 cut).2.1
    refine ⟨before, after, cutBefore?_iff_firstIn.1 cut, ?_⟩
    simp only [count_withoutFinalBreak_eq]
    rfl
  · rintro ⟨before, after, first, rfl⟩
    refine ⟨(before, fragment ++ after), cutBefore?_iff_firstIn.2 first, ?_⟩
    simp only [count_withoutFinalBreak_eq]
    rfl

theorem locate_eq_ok_iff : locate container fragment = .ok r ↔
    locate? container fragment = some r := by
  unfold locate
  cases locate? container fragment with
  | none => simp
  | some _ => simp

/-- A fragment is found where it occurs. -/
theorem exists_locate_iff : (∃ r, locate container fragment = .ok r) ↔ fragment <:+: container := by
  simp only [locate_eq_ok_iff]
  constructor
  · rintro ⟨r, h⟩
    obtain ⟨before, after, first, -⟩ := locate?_eq_some_iff.1 h
    exact first.isInfix
  · intro h
    obtain ⟨before, after, first⟩ := exists_firstIn h
    exact ⟨_, locate?_eq_some_iff.2 ⟨before, after, first, rfl⟩⟩

/-- Looking for it fails elsewhere, and with one error. -/
theorem locate_eq_error_iff {e : Error} : locate container fragment = .error e ↔
    ¬ fragment <:+: container ∧ e = .notLocated fragment container := by
  rw [← exists_locate_iff]
  unfold locate
  split
  · simp
  · simp [eq_comm]

/-- The lines of a range that was found are those that the first occurrence touches. -/
theorem mem_located_iff (located : locate? container fragment = some r) (line : Nat) :
    (r.first ≤ line ∧ (line : Int) ≤ r.last) ↔ Touches fragment container line := by
  obtain ⟨before, after, first, rfl⟩ := locate?_eq_some_iff.1 located
  rw [first.touches_iff]
  simp only
  omega

/-- A range that was found lies within the lines of the text. -/
theorem within_of_locate? (located : locate? container fragment = some r) :
    r.Within (container.dropLast.count '\n' + 1) := by
  obtain ⟨before, after, first, rfl⟩ := locate?_eq_some_iff.1 located
  have front : before.count '\n' + fragment.dropLast.count '\n' ≤ container.dropLast.count '\n' := by
    by_cases empty : fragment = []
    · subst empty
      rw [first.before_eq_nil]
      exact Nat.zero_le _
    · have inner : before ++ fragment.dropLast <+: container.dropLast := by
        rw [← first.whole, List.append_assoc, List.dropLast_append_of_ne_nil (by simp [empty]),
          List.prefix_append_right_inj]
        by_cases rest : after = []
        · rw [rest, List.append_nil]
        · rw [List.dropLast_append_of_ne_nil rest]
          exact (List.dropLast_prefix fragment).trans (List.prefix_append _ _)
      rw [← List.count_append]
      exact inner.sublist.count_le '\n'
  refine ⟨?_, ?_, ?_⟩ <;> simp only <;> omega

/-- Whole lines of a text are cut out of it by their numbers. -/
theorem extract_lines {front middle back : Text} (feeds : OnlyFeeds (front ++ middle ++ back))
    (left : Ended front) (right : Ended middle ∨ back = []) (nonempty : middle ≠ []) :
    extract (front ++ middle ++ back)
      ⟨front.count '\n' + 1, front.count '\n' + 1 + middle.dropLast.count '\n'⟩ = middle := by
  obtain ⟨feeds, -⟩ := OnlyFeeds.append_iff.1 feeds
  obtain ⟨feedsFront, feedsMiddle⟩ := OnlyFeeds.append_iff.1 feeds
  have before := length_fullLines_of_ended feedsFront left
  have inside := length_fullLines feedsMiddle nonempty
  have lines : fullLines (front ++ middle ++ back) =
      fullLines front ++ fullLines middle ++ fullLines back := by
    rcases right with ended | rfl
    · rw [List.append_assoc, fullLines_append (left.parted _),
        fullLines_append (ended.parted back), List.append_assoc]
    · rw [List.append_nil, fullLines_append (left.parted _)]
      exact (List.append_nil _).symm
  have start : ((front.count '\n' + 1 : Nat) : Int) - 1 = (fullLines front).length := by
    omega
  have stop : ((front.count '\n' + 1 + middle.dropLast.count '\n' : Nat) : Int) =
      (fullLines front).length + (fullLines middle).length := by
    omega
  unfold extract
  push_cast at start stop
  simp only
  rw [lines, start, stop, slice_middle, flatten_fullLines]

/-- The range of a fragment is cut out of a text as the fragment with what stands before and behind
it on its lines. -/
theorem exists_extract (feeds : OnlyFeeds container)
    (located : locate? container fragment = some r) :
    ∃ front u v back, FirstIn fragment container (front ++ u) (v ++ back) ∧
      Ended front ∧ '\n' ∉ u ∧ (fragment.getLast? = some '\n' → v = []) ∧ '\n' ∉ v.dropLast ∧
      ((fragment ++ v).getLast? = some '\n' ∨ back = []) ∧
        extract container r = u ++ fragment ++ v := by
  obtain ⟨before, after, first, rfl⟩ := locate?_eq_some_iff.1 located
  obtain ⟨front, u, rfl, left, unbroken⟩ := exists_lineStart before
  obtain ⟨v, back, rfl, none, open', right⟩ := exists_lineRest fragment after
  refine ⟨front, u, v, back, first, left, unbroken, none, open', right, ?_⟩
  have whole : container = front ++ (u ++ fragment ++ v) ++ back := by
    rw [← first.whole]
    simp only [List.append_assoc]
  have count : (front ++ u).count '\n' = front.count '\n' := by
    rw [List.count_append, List.count_eq_zero_of_not_mem unbroken, Nat.add_zero]
  rw [count, ← count_dropLast_around unbroken none open', whole]
  by_cases nonempty : u ++ fragment ++ v = []
  · -- nothing at all is found only in an empty text
    rw [List.append_eq_nil_iff, List.append_eq_nil_iff] at nonempty
    obtain ⟨⟨rfl, rfl⟩, rfl⟩ := nonempty
    obtain rfl : back = [] := right.resolve_left nofun
    obtain rfl : front = [] := by simpa using first.before_eq_nil
    rfl
  · rw [whole] at feeds
    refine extract_lines feeds left (right.imp_left fun ends => .inr ?_) nonempty
    rw [List.append_assoc, List.getLast?_append, ends]
    rfl

/-- In a text that line feeds alone break into lines, what is cut out for the range of a fragment is
the fragment and what completes its lines: the range holds just the lines that its first occurrence
touches. A fragment has no range only where it does not occur. -/
theorem extract_locate (container fragment : Text) :
    (OnlyFeeds container → fragment <:+: container → ∃ r, locate container fragment = .ok r ∧
      (∃ front u v back, FirstIn fragment container (front ++ u) (v ++ back) ∧
        Ended front ∧ '\n' ∉ u ∧ (fragment.getLast? = some '\n' → v = []) ∧ '\n' ∉ v.dropLast ∧
        ((fragment ++ v).getLast? = some '\n' ∨ back = []) ∧
          extract container r = u ++ fragment ++ v) ∧
      ∀ line : Nat, (r.first ≤ line ∧ (line : Int) ≤ r.last) ↔ Touches fragment container line) ∧
    ∀ e, locate container fragment = .error e ↔
      ¬ fragment <:+: container ∧ e = .notLocated fragment container := by
  refine ⟨?_, fun e => locate_eq_error_iff⟩
  intro feeds occurs
  obtain ⟨r, found⟩ := exists_locate_iff.2 occurs
  have located := locate_eq_ok_iff.1 found
  exact ⟨r, found, exists_extract feeds located, mem_located_iff located⟩

/-- Four lines, the third one empty. -/
def fourLines : Text := "x\nab\n\ncab\n"

/-- A fragment that begins and ends inside lines. -/
theorem extract_locate_inside_lines :
    OnlyFeeds fourLines ∧ "b\n\nc".toList <:+: fourLines ∧
      locate fourLines "b\n\nc" = .ok ⟨2, 4⟩ ∧ extract fourLines ⟨2, 4⟩ = "ab\n\ncab\n".toList ∧
      ∀ line : Nat, ((2 : Int) ≤ line ∧ (line : Int) ≤ 4) ↔ Touches "b\n\nc" fourLines line := by
  have feeds : OnlyFeeds fourLines := by decide
  have occurs : "b\n\nc".toList <:+: fourLines := by decide
  obtain ⟨r, located, -, touched⟩ := (extract_locate fourLines "b\n\nc").1 feeds occurs
  have range : locate fourLines "b\n\nc" = .ok ⟨2, 4⟩ := rfl
  rw [range, Except.ok.injEq] at located
  subst located
  exact ⟨feeds, occurs, range, by decide, touched⟩

end LineRange

end FlowReport
