import FlowReport.Proofs.PathNames

/-!
# Names that stay inside

A name with slashes and double dots can lead out of the directory that it is seen from. A path is
`Inner` to a depth if it never leads further up than that. From a directory that far below another
one an inner path stays in the other one, on all of its way, and a path that is not inner leaves it
as long as none of its names leads back.
-/

namespace FlowReport

namespace Path

/-- The names never lead more than `depth` directories above their start. -/
def descends : Nat → List Text → Bool
  | _, [] => true
  | depth, name :: names =>
    if name = "..".toList then 0 < depth && descends (depth - 1) names
    else descends (depth + 1) names

/-- The path starts where it is seen from, and never leads more than `depth` directories up. -/
structure Inner (depth : Nat) (p : Path) : Prop where
  relative : p.root = .relative
  descends : descends depth p.names

instance (depth : Nat) (p : Path) : Decidable (Inner depth p) :=
  decidable_of_iff (p.root = .relative ∧ descends depth p.names)
    ⟨fun h => ⟨h.1, h.2⟩, fun h => ⟨h.relative, h.descends⟩⟩

theorem descends_of_append {front back : List Text} {depth : Nat}
    (h : descends depth (front ++ back)) : descends depth front := by
  induction front generalizing depth with
  | nil => rfl
  | cons name front ih =>
    rw [List.cons_append, descends] at h
    rw [descends]
    split
    · rename_i up
      rw [if_pos up, Bool.and_eq_true] at h
      rw [h.1, ih h.2]
      rfl
    · rename_i straight
      rw [if_neg straight] at h
      exact ih h

theorem descends_mono {names : List Text} {depth depth' : Nat} (le : depth ≤ depth')
    (h : descends depth names) : descends depth' names := by
  induction names generalizing depth depth' with
  | nil => rfl
  | cons name names ih =>
    rw [descends] at h ⊢
    split
    · rename_i up
      rw [if_pos up, Bool.and_eq_true, decide_eq_true_eq] at h
      rw [Bool.and_eq_true, decide_eq_true_eq]
      exact ⟨h.1.trans_le le, ih (Nat.sub_le_sub_right le 1) h.2⟩
    · rename_i straight
      rw [if_neg straight] at h
      exact ih (Nat.succ_le_succ le) h

theorem Inner.mono {p : Path} {depth depth' : Nat} (h : Inner depth p) (le : depth ≤ depth') :
    Inner depth' p :=
  ⟨h.relative, descends_mono le h.descends⟩

/-- Nothing is above a name without slashes. -/
theorem inner_above_of_unbroken {s : Text} (unbroken : '/' ∉ s) (depth : Nat) :
    Inner depth (above s) := by
  rw [above_of_unbroken unbroken]
  exact ⟨rfl, rfl⟩

theorem append_of_relative {p q : Path} (relative : q.root = .relative) :
    p ++ q = ⟨p.root, p.names ++ q.names⟩ := if_pos relative

theorem append_of_rooted {p q : Path} (rooted : q.root ≠ .relative) : p ++ q = q := if_neg rooted

theorem parent_append_concat (p q : Path) (name : Text) :
    (p ++ (⟨q.root, q.names ++ [name]⟩ : Path)).parent = p ++ q := by
  show (Path.append p _).parent = Path.append p q
  unfold Path.append
  dsimp only
  split
  · rw [parent, ← List.append_assoc, List.dropLast_concat]
  · rw [parent, List.dropLast_concat]

/-- The directory of the file of a name with an ending. -/
theorem parent_child_append {tail : Text} (long : 2 < tail.length) (unbroken : '/' ∉ tail)
    (p : Path) (s : Text) : (p.child (s ++ tail)).parent = p ++ above s := by
  unfold child
  rw [ofText_append long unbroken, parent_append_concat]

end Path

namespace FileTree

open FlowReport.Path

variable {start d here : Address} {stack names : List Text} {mark : Text} {p q : Path}

/-- Names that never lead above a directory end in it. -/
theorem prefix_foldl_down (h : descends stack.length names) :
    d <+: names.foldl down (d ++ stack) := by
  induction names generalizing stack with
  | nil => exact List.prefix_append _ _
  | cons name names ih =>
    rw [descends] at h
    rw [List.foldl_cons, down]
    split
    · rename_i up
      rw [if_pos up, Bool.and_eq_true, decide_eq_true_eq, List.length_pos_iff] at h
      rw [List.dropLast_append_of_ne_nil h.1]
      exact ih (by rw [List.length_dropLast]; exact h.2)
    · rename_i straight
      rw [if_neg straight] at h
      rw [List.append_assoc]
      exact ih (by rw [List.length_append]; exact h)

/-- Names that do not name a directory do not lead into it from elsewhere. -/
theorem not_prefix_foldl_down (fresh : mark ∉ names) (outside : ¬ d ++ [mark] <+: here) :
    ¬ d ++ [mark] <+: names.foldl down here := by
  induction names generalizing here with
  | nil => exact outside
  | cons name names ih =>
    rw [List.mem_cons, not_or] at fresh
    refine ih fresh.2 fun inside => ?_
    unfold down at inside
    split at inside
    · exact outside (inside.trans (List.dropLast_prefix here))
    · rcases List.prefix_concat_iff.1 inside with same | above
      · exact fresh.1 (List.cons.inj (List.append_inj_right' same rfl)).1
      · exact outside above

/-- So they stay in it only if they never lead above it. -/
theorem descends_of_prefix (fresh : mark ∉ names)
    (inside : d ++ [mark] <+: names.foldl down (d ++ [mark] ++ stack)) :
    descends stack.length names := by
  induction names generalizing stack with
  | nil => rfl
  | cons name names ih =>
    rw [List.mem_cons, not_or] at fresh
    rw [List.foldl_cons, down] at inside
    rw [descends]
    split
    · rename_i up
      rw [if_pos up] at inside
      rw [Bool.and_eq_true, decide_eq_true_eq, List.length_pos_iff]
      by_cases top : stack = []
      · subst top
        rw [List.append_nil, List.dropLast_concat] at inside
        have outside : ¬ d ++ [mark] <+: d := fun above => by
          have := above.length_le
          rw [List.length_append, List.length_singleton] at this
          omega
        exact absurd inside (not_prefix_foldl_down fresh.2 outside)
      · rw [List.dropLast_append_of_ne_nil top] at inside
        exact ⟨top, List.length_dropLast ▸ ih fresh.2 inside⟩
    · rename_i straight
      rw [if_neg straight, List.append_assoc] at inside
      have := ih fresh.2 inside
      rwa [List.length_append] at this

theorem place_append_of_relative (relative : q.root = .relative) :
    place start (p ++ q) = q.names.foldl down (place start p) := by
  rw [append_of_relative relative, place_append]

/-- An inner path stays in the directory. -/
theorem prefix_place_append (seen : place start p = d ++ stack) (inner : Inner stack.length q) :
    d <+: place start (p ++ q) := by
  rw [place_append_of_relative inner.relative, seen]
  exact prefix_foldl_down inner.descends

/-- So do all places on its way. -/
theorem prefix_place_front (seen : place start p = d ++ stack) (inner : Inner stack.length q)
    {front : List Text} (way : front <+: (p ++ q).names) :
    front <+: p.names ∨ d <+: place start ⟨p.root, front⟩ := by
  rw [append_of_relative inner.relative] at way
  obtain ⟨back, whole⟩ := way
  rcases List.append_eq_append_iff.1 whole with ⟨more, names, -⟩ | ⟨more, rfl, names⟩
  · exact .inl ⟨more, names.symm⟩
  · right
    rw [place_append, seen]
    exact prefix_foldl_down (descends_of_append (names ▸ inner.descends))

/-- A path that stays in a directory which it does not name is an inner one. -/
theorem inner_of_prefix (fresh : mark ∉ q.names)
    (seen : place start p = d ++ [mark] ++ stack) (inside : d ++ [mark] <+: place start (p ++ q)) :
    Inner stack.length q := by
  have relative : q.root = .relative := by
    by_contra rooted
    rw [append_of_rooted rooted, place, if_neg rooted] at inside
    exact not_prefix_foldl_down fresh (by simp) inside
  rw [place_append_of_relative relative, seen] at inside
  exact ⟨relative, descends_of_prefix fresh inside⟩

end FileTree

/-- A text that is longer than all of some texts. -/
def Text.longerThan (texts : List Text) : Text := 'x' :: List.replicate texts.flatten.length 'x'

theorem Text.length_lt_longerThan {texts : List Text} {s : Text} (member : s ∈ texts) :
    s.length < (longerThan texts).length := by
  have := (List.sublist_flatten_of_mem member).length_le
  rw [longerThan, List.length_cons, List.length_replicate]
  omega

theorem Text.eq_of_mem_longerThan {texts : List Text} {c : Char} (h : c ∈ longerThan texts) :
    c = 'x' :=
  (List.mem_cons.1 h).elim id List.eq_of_mem_replicate

end FlowReport
