import FlowReport.LineRange
import FlowReport.Proofs.Join
import Mathlib.Order.Bounds.Defs

/-!
# Where lines occur among lines

A search for a text sees characters and no lines. If both the text and what is searched for are
joined lines, an occurrence is some lines whose first one may start inside a line and whose last
one may end inside a line; `Covers` says that there is one from a given line on. The search finds
the first line with an occurrence.
-/

namespace FlowReport

namespace Text

/-- The lines begin with the pieces: all of these but the last are whole lines, and the last one
begins a line. -/
def Begins : (pieces lines : List Text) → Prop
  | [], _ => True
  | _ :: _, [] => False
  | [piece], line :: _ => piece <+: line
  | piece :: next :: pieces, line :: lines => piece = line ∧ Begins (next :: pieces) lines

instance decidableBegins : (pieces lines : List Text) → Decidable (Begins pieces lines)
  | [], _ => inferInstanceAs (Decidable True)
  | _ :: _, [] => inferInstanceAs (Decidable False)
  | [piece], line :: _ => inferInstanceAs (Decidable (piece <+: line))
  | piece :: next :: pieces, line :: lines =>
    have := decidableBegins (next :: pieces) lines
    inferInstanceAs (Decidable (piece = line ∧ Begins (next :: pieces) lines))

/-- The pieces are found from within the first line on: an end of it and the lines behind it begin
with them. -/
def Covers (pieces : List Text) : (lines : List Text) → Prop
  | [] => False
  | line :: lines => ∃ rest ∈ line.tails, Begins pieces (rest :: lines)

instance (pieces lines : List Text) : Decidable (Covers pieces lines) :=
  match lines with
  | [] => inferInstanceAs (Decidable False)
  | line :: lines =>
    inferInstanceAs (Decidable (∃ rest ∈ line.tails, Begins pieces (rest :: lines)))

/-- Lines cover themselves. -/
theorem begins_append {pieces : List Text} (rest : List Text) : Begins pieces (pieces ++ rest) := by
  induction pieces with
  | nil => trivial
  | cons piece pieces ih =>
    cases pieces with
    | nil => exact List.prefix_rfl
    | cons next pieces => exact ⟨rfl, ih⟩

theorem covers_of_begins {pieces lines : List Text} (nonempty : lines ≠ [])
    (h : Begins pieces lines) : Covers pieces lines := by
  cases lines with
  | nil => exact absurd rfl nonempty
  | cons line lines => exact ⟨line, (List.mem_tails _ _).2 List.suffix_rfl, h⟩

/-- A whole line in front is found only as a whole line. -/
theorem begins_with_line_iff {piece line s t : Text} (unbroken : '\n' ∉ piece)
    (unbroken' : '\n' ∉ line) :
    piece ++ '\n' :: s <+: line ++ '\n' :: t ↔ piece = line ∧ s <+: t := by
  induction piece generalizing line with
  | nil =>
    cases line with
    | nil => simp
    | cons c line =>
      have : '\n' ≠ c := fun h => unbroken' (h ▸ List.mem_cons_self)
      simp [this]
  | cons a piece ih =>
    have ha : a ≠ '\n' := fun h => unbroken (h ▸ List.mem_cons_self)
    cases line with
    | nil => simp [ha]
    | cons c line =>
      have tail := @ih line (fun h => unbroken (List.mem_cons_of_mem _ h))
        fun h => unbroken' (List.mem_cons_of_mem _ h)
      rw [List.cons_append, List.cons_append, List.cons_prefix_cons, tail, List.cons.injEq,
        and_assoc]

/-- What holds no line feed does not reach beyond the first line. -/
theorem prefix_append_break {piece line t : Text} (unbroken : '\n' ∉ piece) :
    piece <+: line ++ '\n' :: t ↔ piece <+: line := by
  constructor
  · intro h
    rcases List.prefix_or_prefix_of_prefix h (List.prefix_append line _) with h' | ⟨r, rfl⟩
    · exact h'
    · rw [List.prefix_append_right_inj] at h
      cases r with
      | nil => simp
      | cons c r =>
        obtain ⟨rfl, -⟩ := List.cons_prefix_cons.1 h
        exact absurd (List.mem_append_right _ List.mem_cons_self) unbroken
  · intro h
    exact h.trans (List.prefix_append _ _)

/-- Joined lines begin with joined pieces as the lines begin with the pieces. -/
theorem join_prefix_iff {pieces lines : List Text} (left : pieces ≠ []) (right : lines ≠ [])
    (unbroken : ∀ piece ∈ pieces, '\n' ∉ piece) (unbroken' : ∀ line ∈ lines, '\n' ∉ line) :
    join ['\n'] pieces <+: join ['\n'] lines ↔ Begins pieces lines := by
  induction pieces generalizing lines with
  | nil => exact absurd rfl left
  | cons piece pieces ih =>
    obtain ⟨hp, unbroken⟩ := List.forall_mem_cons.1 unbroken
    cases lines with
    | nil => exact absurd rfl right
    | cons line lines =>
      obtain ⟨hl, unbroken'⟩ := List.forall_mem_cons.1 unbroken'
      cases pieces with
      | nil =>
        cases lines with
        | nil => rfl
        | cons other lines =>
          rw [join_cons (List.cons_ne_nil _ _), List.append_assoc]
          exact prefix_append_break hp
      | cons next pieces =>
        rw [join_cons (List.cons_ne_nil next pieces), List.append_assoc]
        cases lines with
        | nil =>
          constructor
          · intro h
            have inside : '\n' ∈ line := h.mem (List.mem_append_right _ List.mem_cons_self)
            exact absurd inside hl
          · intro h
            exact h.2.elim
        | cons other lines =>
          rw [join_cons (List.cons_ne_nil other lines), List.append_assoc]
          refine (begins_with_line_iff hp hl).trans (and_congr_right fun _ => ?_)
          exact ih (List.cons_ne_nil _ _) (List.cons_ne_nil _ _) unbroken unbroken'

/-- Wherever joined lines are cut, the line feeds before the cut tell the line that is cut. -/
theorem split_join {ls : List Text} (nonempty : ls ≠ []) (unbroken : ∀ l ∈ ls, '\n' ∉ l)
    {before found : Text} (h : join ['\n'] ls = before ++ found) :
    ∃ u v, ls.drop (before.count '\n') = (u ++ v) :: ls.drop (before.count '\n' + 1) ∧
      found = join ['\n'] (v :: ls.drop (before.count '\n' + 1)) := by
  induction ls generalizing before with
  | nil => exact absurd rfl nonempty
  | cons line ls ih =>
    obtain ⟨hl, unbroken⟩ := List.forall_mem_cons.1 unbroken
    -- a cut within the first line has no line feed before it
    have within : ∀ {v : Text}, line = before ++ v → before.count '\n' = 0 := by
      rintro v rfl
      exact List.count_eq_zero_of_not_mem fun h => hl (List.mem_append_left _ h)
    cases ls with
    | nil =>
      rw [within (show line = before ++ found from h)]
      exact ⟨before, found, by rw [List.drop_zero, show line = before ++ found from h]; rfl, rfl⟩
    | cons next ls =>
      rw [join_cons (List.cons_ne_nil _ _), List.append_assoc, List.append_eq_append_iff] at h
      rcases h with ⟨r, rfl, h⟩ | ⟨v, same, rfl⟩
      · cases r with
        | nil =>
          rw [List.append_nil] at within ⊢
          rw [within (List.append_nil _).symm]
          refine ⟨line, [], by simp, ?_⟩
          rw [List.drop_one, List.tail_cons, join_cons (List.cons_ne_nil _ _)]
          exact h.symm
        | cons c r =>
          rw [List.singleton_append, List.cons_append, List.cons.injEq] at h
          obtain ⟨rfl, h⟩ := h
          have count : (line ++ '\n' :: r).count '\n' = r.count '\n' + 1 := by
            rw [List.count_append, List.count_eq_zero_of_not_mem hl, List.count_cons_self]
            omega
          rw [count]
          exact ih (List.cons_ne_nil _ _) unbroken h
      · rw [within same]
        refine ⟨before, v, by rw [List.drop_zero, same]; rfl, ?_⟩
        rw [List.drop_one, List.tail_cons, join_cons (List.cons_ne_nil _ _), List.append_assoc]

theorem join_append_cons (mark u v : Text) (rest : List Text) :
    join mark ((u ++ v) :: rest) = u ++ join mark (v :: rest) := by
  cases rest with
  | nil => rfl
  | cons next rest => simp only [join, List.append_assoc]

/-- Joined lines can be cut within each of them. -/
theorem exists_split {ls rest : List Text} {i : Nat} {u v : Text}
    (unbroken : ∀ l ∈ ls, '\n' ∉ l) (h : ls.drop i = (u ++ v) :: rest) :
    ∃ before, join ['\n'] ls = before ++ join ['\n'] (v :: rest) ∧ before.count '\n' = i := by
  induction i generalizing ls with
  | zero =>
    rw [List.drop_zero] at h
    subst h
    refine ⟨u, join_append_cons .., List.count_eq_zero_of_not_mem fun h => ?_⟩
    exact unbroken _ List.mem_cons_self (List.mem_append_left _ h)
  | succ i ih =>
    cases ls with
    | nil => cases h
    | cons line ls =>
      rw [List.drop_succ_cons] at h
      obtain ⟨hl, unbroken⟩ := List.forall_mem_cons.1 unbroken
      obtain ⟨before, same, count⟩ := ih unbroken h
      have more : ls ≠ [] := by
        rintro rfl
        simp at h
      refine ⟨line ++ ['\n'] ++ before, ?_, ?_⟩
      · rw [join_cons more, same]
        simp only [List.append_assoc]
      · rw [List.count_append, List.count_append, List.count_eq_zero_of_not_mem hl, count,
          List.count_singleton_self]
        omega

/-- Joined pieces occur in joined lines where the pieces are found from within a line on. -/
theorem covers_drop_iff {pieces ls : List Text} (left : pieces ≠ []) (right : ls ≠ [])
    (unbroken : ∀ piece ∈ pieces, '\n' ∉ piece) (unbroken' : ∀ l ∈ ls, '\n' ∉ l) (i : Nat) :
    Covers pieces (ls.drop i) ↔ ∃ before found, before ++ found = join ['\n'] ls ∧
      join ['\n'] pieces <+: found ∧ before.count '\n' = i := by
  -- what stands behind a cut is unbroken again
  have behind : ∀ {j u v rest}, ls.drop j = (u ++ v) :: rest → ∀ l ∈ v :: rest, '\n' ∉ l := by
    intro j u v rest h l hl
    rcases List.mem_cons.1 hl with rfl | hl
    · have := unbroken' (u ++ l) (List.mem_of_mem_drop (h ▸ List.mem_cons_self))
      exact fun h => this (List.mem_append_right _ h)
    · exact unbroken' l (List.mem_of_mem_drop (h ▸ List.mem_cons_of_mem _ hl))
  constructor
  · intro h
    cases cut : ls.drop i with
    | nil => rw [cut] at h; exact h.elim
    | cons line rest =>
      rw [cut] at h
      obtain ⟨v, hv, begins⟩ := h
      obtain ⟨u, rfl⟩ := (List.mem_tails _ _).1 hv
      obtain ⟨before, same, count⟩ := exists_split unbroken' cut
      refine ⟨before, _, same.symm, ?_, count⟩
      exact (join_prefix_iff left (List.cons_ne_nil _ _) unbroken (behind cut)).2 begins
  · rintro ⟨before, found, same, occurs, rfl⟩
    obtain ⟨u, v, cut, rfl⟩ := split_join right unbroken' same.symm
    rw [cut]
    refine ⟨v, (List.mem_tails _ _).2 (List.suffix_append u v), ?_⟩
    exact (join_prefix_iff left (List.cons_ne_nil _ _) unbroken (behind cut)).1 occurs

/-- No occurrence begins before `n + 1` if none begins at the head and none before `n` in the rest. -/
theorem no_earlier_cons {part s : Text} {c : Char} {n : Nat} :
    (∀ u v, u ++ v = c :: s → part <+: v → n + 1 ≤ u.length) ↔
      ¬ part <+: c :: s ∧ ∀ u v, u ++ v = s → part <+: v → n ≤ u.length := by
  constructor
  · intro first
    refine ⟨fun here => ?_, fun u v same occurs => ?_⟩
    · exact absurd (first [] _ rfl here) (Nat.not_succ_le_zero n)
    · exact Nat.le_of_succ_le_succ (first (c :: u) v (by rw [List.cons_append, same]) occurs)
  · rintro ⟨later, first⟩ u v same occurs
    cases u with
    | nil =>
      obtain rfl : v = _ := same
      exact absurd occurs later
    | cons a u =>
      rw [List.cons_append, List.cons.injEq] at same
      exact Nat.succ_le_succ (first u v same.2 occurs)

/-- The search finds the first place where the text goes on with what is searched for. -/
theorem cutBefore?_eq_some_iff {part s before found : Text} :
    cutBefore? part s = some (before, found) ↔ before ++ found = s ∧ part <+: found ∧
      ∀ u v, u ++ v = s → part <+: v → before.length ≤ u.length := by
  induction s generalizing before found with
  | nil =>
    rw [cutBefore?, List.append_eq_nil_iff]
    split
    · rename_i empty
      subst empty
      simp only [Option.some.injEq, Prod.mk.injEq]
      constructor
      · rintro ⟨rfl, rfl⟩
        exact ⟨⟨rfl, rfl⟩, List.nil_prefix, fun _ _ _ _ => Nat.zero_le _⟩
      · rintro ⟨⟨rfl, rfl⟩, -⟩
        exact ⟨rfl, rfl⟩
    · rename_i more
      refine iff_of_false nofun ?_
      rintro ⟨⟨-, rfl⟩, occurs, -⟩
      exact more (List.prefix_nil.1 occurs)
  | cons c s ih =>
    rw [cutBefore?]
    split
    · rename_i here
      rw [List.isPrefixOf_iff_prefix] at here
      simp only [Option.some.injEq, Prod.mk.injEq]
      constructor
      · rintro ⟨rfl, rfl⟩
        exact ⟨rfl, here, fun _ _ _ _ => Nat.zero_le _⟩
      · rintro ⟨same, -, first⟩
        obtain rfl : before = [] := List.length_eq_zero_iff.1 (Nat.le_zero.1 (first [] _ rfl here))
        exact ⟨rfl, same.symm⟩
    · rename_i later
      rw [List.isPrefixOf_iff_prefix] at later
      constructor
      · intro h
        obtain ⟨⟨b, r⟩, hb, h⟩ := Option.map_eq_some_iff.1 h
        cases h
        obtain ⟨rfl, occurs, first⟩ := ih.1 hb
        exact ⟨rfl, occurs, no_earlier_cons.2 ⟨later, first⟩⟩
      · rintro ⟨same, occurs, first⟩
        cases before with
        | nil =>
          obtain rfl : found = _ := same
          exact absurd occurs later
        | cons a before =>
          rw [List.cons_append, List.cons.injEq] at same
          obtain ⟨rfl, same⟩ := same
          exact Option.map_eq_some_iff.2
            ⟨(before, found), ih.2 ⟨same, occurs, (no_earlier_cons.1 first).2⟩, rfl⟩

/-- A text that occurs is found. -/
theorem exists_cutBefore? {part s u v : Text} (same : u ++ v = s) (occurs : part <+: v) :
    ∃ before found, cutBefore? part s = some (before, found) := by
  induction s generalizing u with
  | nil =>
    obtain ⟨rfl, rfl⟩ := List.append_eq_nil_iff.1 same
    exact ⟨[], [], by rw [cutBefore?, if_pos (List.prefix_nil.1 occurs)]⟩
  | cons c s ih =>
    by_cases here : part.isPrefixOf (c :: s)
    · exact ⟨[], c :: s, by rw [cutBefore?, if_pos here]⟩
    · cases u with
      | nil =>
        obtain rfl : v = _ := same
        exact absurd (List.isPrefixOf_iff_prefix.2 occurs) here
      | cons a u =>
        rw [List.cons_append, List.cons.injEq] at same
        obtain ⟨before, found, h⟩ := ih same.2
        exact ⟨c :: before, found, by rw [cutBefore?, if_neg here, h]; rfl⟩

/-- A text contains what is a stretch of it. -/
theorem contains_iff {part s : Text} : contains part s = true ↔ part <:+: s := by
  rw [contains, Option.isSome_iff_exists]
  constructor
  · rintro ⟨⟨before, found⟩, cut⟩
    obtain ⟨rfl, ⟨rest, rfl⟩, -⟩ := cutBefore?_eq_some_iff.1 cut
    exact ⟨before, rest, List.append_assoc ..⟩
  · rintro ⟨before, rest, same⟩
    rw [List.append_assoc] at same
    obtain ⟨before, found, cut⟩ := exists_cutBefore? same (List.prefix_append part rest)
    exact ⟨_, cut⟩

/-- What does not hold a mark is found before or behind it. -/
theorem infix_append_cons_iff {part s : Text} {mark : Char} (unbroken : mark ∉ part)
    (rest : Text) : part <:+: s ++ mark :: rest ↔ part <:+: s ∨ part <:+: rest := by
  rw [List.infix_append_iff, List.infix_cons_iff]
  have across : ∀ front back, part = front ++ back → back <+: mark :: rest → back = [] := by
    intro front back same begins
    cases back with
    | nil => rfl
    | cons c back =>
      obtain rfl := (List.cons_prefix_cons.1 begins).1
      exact absurd (same ▸ List.mem_append_right front List.mem_cons_self) unbroken
  constructor
  · rintro (left | (begins | right) | ⟨front, back, same, ends, begins⟩)
    · exact .inl left
    · rw [across [] part rfl begins]
      exact .inl (List.nil_infix)
    · exact .inr right
    · rw [same, across front back same begins, List.append_nil]
      exact .inl ends.isInfix
  · rintro (left | right)
    · exact .inl left
    · exact .inr (.inl (.inr right))

/-- The search for joined pieces in joined lines finds the first line with an occurrence. -/
theorem cutBefore?_join {pieces ls : List Text} (left : pieces ≠ []) (right : ls ≠ [])
    (unbroken : ∀ piece ∈ pieces, '\n' ∉ piece) (unbroken' : ∀ l ∈ ls, '\n' ∉ l) {i : Nat}
    (covers : Covers pieces (ls.drop i)) :
    ∃ before found, cutBefore? (join ['\n'] pieces) (join ['\n'] ls) = some (before, found) ∧
      IsLeast {j | Covers pieces (ls.drop j)} (before.count '\n') := by
  have places := covers_drop_iff left right unbroken unbroken'
  obtain ⟨u, v, same, occurs, -⟩ := (places i).1 covers
  obtain ⟨before, found, h⟩ := exists_cutBefore? same occurs
  obtain ⟨same, occurs, first⟩ := cutBefore?_eq_some_iff.1 h
  refine ⟨before, found, h, (places _).2 ⟨before, found, same, occurs, rfl⟩, ?_⟩
  intro j covers
  obtain ⟨u, v, same', occurs', rfl⟩ := (places j).1 covers
  -- the first occurrence begins where no more line feeds have passed
  have shorter : before <+: u :=
    List.prefix_of_prefix_length_le ⟨found, same⟩ ⟨v, same'⟩ (first u v same' occurs')
  exact shorter.sublist.count_le _

end Text

end FlowReport
