import FlowReport.Proofs.Places
import Mathlib.Data.List.TakeWhile

/-!
# Written paths

Where a written path leads, by the text behind its last slash. A text that names a file is often
made from some other text and an ending: `base` is the part of it that the ending makes a name with,
and `above` is the path of the directory. `splitName_cases` says how a name is cut into its stem and
its ending.
-/

namespace FlowReport

theorem Text.split_append {mark : Char} {tail : Text} (unbroken : mark ∉ tail) (s : Text) :
    split mark (s ++ tail) =
      (split mark s).dropLast ++ [(split mark s).getLast (split_ne_nil mark s) ++ tail] := by
  have alone : split mark tail = [tail] := by
    induction tail with
    | nil => rfl
    | cons c tail ih =>
      have hc : c ≠ mark := fun h => unbroken (h ▸ List.mem_cons_self)
      rw [split, if_neg hc, ih fun h => unbroken (List.mem_cons_of_mem _ h)]
  induction s with
  | nil => exact alone
  | cons c s ih =>
    rw [List.cons_append]
    by_cases hc : c = mark
    · simp only [split, if_pos hc, ih]
      rw [List.dropLast_cons_of_ne_nil (split_ne_nil mark s),
        List.getLast_cons (split_ne_nil mark s), List.cons_append]
    · obtain ⟨piece, pieces, same⟩ := List.exists_cons_of_ne_nil (split_ne_nil mark s)
      simp only [split, if_neg hc, ih, same]
      cases pieces with
      | nil => rfl
      | cons next pieces => simp

theorem Text.not_mem_of_mem_split {mark : Char} {s : Text} :
    ∀ piece ∈ split mark s, mark ∉ piece := by
  induction s with
  | nil => simp [split]
  | cons c s ih =>
    by_cases hc : c = mark
    · simp only [split, if_pos hc]
      exact List.forall_mem_cons.2 ⟨List.not_mem_nil, ih⟩
    · obtain ⟨piece, pieces, same⟩ := List.exists_cons_of_ne_nil (split_ne_nil mark s)
      simp only [split, if_neg hc, same] at ih ⊢
      obtain ⟨head, tail⟩ := List.forall_mem_cons.1 ih
      refine List.forall_mem_cons.2 ⟨fun h => ?_, tail⟩
      rcases List.mem_cons.1 h with rfl | h
      · exact hc rfl
      · exact head h

namespace Path

/-- The text behind the last slash. -/
def base (s : Text) : Text := (Text.split '/' s).getLast (Text.split_ne_nil '/' s)

/-- The path that the text before the last slash writes. -/
def above (s : Text) : Path :=
  ⟨rootOf s, (Text.split '/' s).dropLast.filter fun name => name ≠ [] ∧ name ≠ ['.']⟩

theorem rootOf_append {tail : Text} (nonempty : tail ≠ []) (unbroken : '/' ∉ tail) (s : Text) :
    rootOf (s ++ tail) = rootOf s := by
  have none : tail.takeWhile (· = '/') = [] := by
    obtain ⟨c, tail, rfl⟩ := List.exists_cons_of_ne_nil nonempty
    have hc : c ≠ '/' := fun h => unbroken (h ▸ List.mem_cons_self)
    simp [hc]
  have same : (s ++ tail).takeWhile (· = '/') = s.takeWhile (· = '/') := by
    rw [List.takeWhile_append, none, List.append_nil]
    split
    · rename_i all
      exact ((List.takeWhile_prefix _).eq_of_length all).symm
    · rfl
  rw [rootOf, same, rootOf]

/-- An ending without a slash makes one name, with what stands behind the last slash. -/
theorem ofText_append {tail : Text} (long : 2 < tail.length) (unbroken : '/' ∉ tail) (s : Text) :
    ofText (s ++ tail) = ⟨(above s).root, (above s).names ++ [base s ++ tail]⟩ := by
  have nonempty : tail ≠ [] := by
    rintro rfl
    cases long
  have kept : base s ++ tail ≠ [] ∧ base s ++ tail ≠ ['.'] := by
    constructor <;> intro h <;> have := congrArg List.length h <;>
      simp only [List.length_append, List.length_nil, List.length_singleton] at this <;> omega
  have last : [base s ++ tail].filter (fun name => name ≠ [] ∧ name ≠ ['.']) = [base s ++ tail] :=
    List.filter_eq_self.2 fun name h => by
      rw [List.mem_singleton.1 h]
      exact decide_eq_true kept
  rw [ofText, rootOf_append nonempty unbroken, Text.split_append unbroken, List.filter_append]
  exact congrArg (fun names => (⟨_, _ ++ names⟩ : Path)) last

theorem name_concat (root : Root) (names : List Text) (last : Text) :
    (⟨root, names ++ [last]⟩ : Path).name = last := by
  rw [name, List.getLast?_concat]
  rfl

theorem parent_concat (root : Root) (names : List Text) (last : Text) :
    (⟨root, names ++ [last]⟩ : Path).parent = ⟨root, names⟩ := by
  rw [parent, List.dropLast_concat]

/-- The names of a path are pieces between slashes. -/
theorem unbroken_names (s : Text) : ∀ name ∈ (ofText s).names, '/' ∉ name :=
  fun name h => Text.not_mem_of_mem_split name (List.mem_of_mem_filter h)

theorem unbroken_name (s : Text) : '/' ∉ (ofText s).name := by
  unfold name
  cases last : (ofText s).names.getLast? with
  | none => exact List.not_mem_nil
  | some name => exact unbroken_names s name (List.mem_of_getLast? last)

theorem split_of_unbroken {s : Text} (unbroken : '/' ∉ s) : Text.split '/' s = [s] :=
  Text.split_append unbroken []

theorem rootOf_of_unbroken {s : Text} (unbroken : '/' ∉ s) : rootOf s = .relative := by
  cases s with
  | nil => rfl
  | cons c s =>
    have hc : c ≠ '/' := fun h => unbroken (h ▸ List.mem_cons_self)
    simp [rootOf, hc]

theorem base_of_unbroken {s : Text} (unbroken : '/' ∉ s) : base s = s := by
  simp only [base, split_of_unbroken unbroken, List.getLast_singleton]

theorem above_of_unbroken {s : Text} (unbroken : '/' ∉ s) : above s = ⟨.relative, []⟩ := by
  rw [above, rootOf_of_unbroken unbroken, split_of_unbroken unbroken]
  rfl

/-- A text without a slash is a name of its own, or nothing. -/
theorem ofText_of_unbroken {s : Text} (unbroken : '/' ∉ s) :
    ofText s = ⟨.relative, if s = [] ∨ s = ['.'] then [] else [s]⟩ := by
  rw [ofText, rootOf_of_unbroken unbroken, split_of_unbroken unbroken]
  by_cases h : s = [] ∨ s = ['.']
  · rw [if_pos h]
    rcases h with rfl | rfl <;> rfl
  · rw [if_neg h]
    rw [not_or] at h
    simp [h]

/-- A text without a slash leads into a directory, or nowhere else. -/
theorem child_of_unbroken {s : Text} (unbroken : '/' ∉ s) (p : Path) :
    p.child s = ⟨p.root, p.names ++ if s = [] ∨ s = ['.'] then [] else [s]⟩ := by
  unfold child
  rw [ofText_of_unbroken unbroken]
  rfl

/-- A single name leads to a place in a directory. -/
theorem child_name {s : Text} (unbroken : '/' ∉ s) (long : 1 < s.length) (p : Path) :
    p.child s = ⟨p.root, p.names ++ [s]⟩ := by
  rw [child_of_unbroken unbroken, if_neg]
  rintro (rfl | rfl)
  · cases long
  · exact absurd long (by decide)

/-! ## Names and endings -/

theorem ne_dot_of_mem_reverse {s : Text} (undotted : '.' ∉ s) :
    ∀ c ∈ s.reverse, decide (c ≠ '.') = true := by
  intro c member
  rw [decide_eq_true_eq]
  rintro rfl
  exact undotted (List.mem_reverse.1 member)

theorem splitName_of_undotted {s : Text} (undotted : '.' ∉ s) : splitName s = (s, []) := by
  have front : s.reverse.dropWhile (· ≠ '.') = [] := 
    List.dropWhile_eq_nil_iff.2 (ne_dot_of_mem_reverse undotted)
  unfold splitName
  simp only [front, List.drop_nil, true_or, if_true]

/-- The last dot of a name begins its ending, unless there is nothing before or behind it. -/
theorem splitName_dotted {front ending : Text} (undotted : '.' ∉ ending) :
    splitName (front ++ '.' :: ending) =
      if front = [] ∨ ending = [] then (front ++ '.' :: ending, []) else (front, '.' :: ending) := by
  have all := ne_dot_of_mem_reverse undotted
  have read : (front ++ '.' :: ending).reverse = ending.reverse ++ '.' :: front.reverse := by simp
  have back : (front ++ '.' :: ending).reverse.takeWhile (· ≠ '.') = ending.reverse := by
    rw [read, List.takeWhile_append_of_pos all, List.takeWhile_cons_of_neg (by simp),
      List.append_nil]
  have rest : ((front ++ '.' :: ending).reverse.dropWhile (· ≠ '.')).drop 1 = front.reverse := by
    rw [read, List.dropWhile_append_of_pos all, List.dropWhile_cons_of_neg (by simp)]
    rfl
  unfold splitName
  simp only [back, rest, List.reverse_eq_nil_iff, List.reverse_reverse]

/-- A name has no ending, or it is cut at its last dot into two parts that are not empty. -/
theorem splitName_cases (name : Text) : splitName name = (name, []) ∨
    ∃ front ending, name = front ++ '.' :: ending ∧ front ≠ [] ∧ ending ≠ [] ∧ '.' ∉ ending ∧
      splitName name = (front, '.' :: ending) := by
  by_cases dotted : '.' ∈ name
  · obtain ⟨back, rest, cut, undotted⟩ := List.eq_append_cons_of_mem (List.mem_reverse.2 dotted)
    have whole : name = rest.reverse ++ '.' :: back.reverse := by
      rw [← List.reverse_inj, cut]
      simp
    have undotted : '.' ∉ back.reverse := fun member => undotted (List.mem_reverse.1 member)
    have split : splitName (rest.reverse ++ '.' :: back.reverse) = _ := splitName_dotted undotted
    rw [← whole] at split
    by_cases none : rest.reverse = [] ∨ back.reverse = []
    · exact .inl (split.trans (if_pos none))
    · obtain ⟨front, ending⟩ := not_or.1 none
      exact .inr ⟨_, _, whole, front, ending, undotted, split.trans (if_neg none)⟩
  · exact .inl (splitName_of_undotted dotted)

theorem unbroken_splitName {name : Text} (unbroken : '/' ∉ name) :
    '/' ∉ (splitName name).1 := by
  rcases splitName_cases name with whole | ⟨front, ending, whole, -, -, -, split⟩
  · rw [whole]
    exact unbroken
  · rw [split]
    exact fun member => unbroken (whole ▸ List.mem_append_left _ member)

end Path

namespace FileTree

theorem place_append (start : Address) (p : Path) (names : List Text) :
    place start ⟨p.root, p.names ++ names⟩ = names.foldl down (place start p) :=
  List.foldl_append

/-- Names lead down where none of them is a double dot. -/
theorem foldl_down {names : List Text} (straight : "..".toList ∉ names) (here : Address) :
    names.foldl down here = here ++ names := by
  induction names generalizing here with
  | nil => exact (List.append_nil here).symm
  | cons name names ih =>
    rw [List.mem_cons, not_or] at straight
    rw [List.foldl_cons, down, if_neg (Ne.symm straight.1), ih straight.2, List.append_assoc]
    rfl

/-- A name of more than two characters leads down. -/
theorem ne_up_of_long {s : Text} (long : 2 < s.length) : s ≠ "..".toList := by
  rintro rfl
  exact absurd long (by decide)

theorem append_ne_up {ending : Text} (long : 2 < ending.length) (s : Text) :
    s ++ ending ≠ "..".toList := by
  apply ne_up_of_long
  rw [List.length_append]
  omega

/-- Where the file of a name with an ending is. -/
theorem place_child_append {tail : Text} (long : 2 < tail.length) (unbroken : '/' ∉ tail)
    (start : Address) (p : Path) (s : Text) :
    place start (p.child (s ++ tail)) =
      place start (p ++ Path.above s) ++ [Path.base s ++ tail] := by
  have straight : "..".toList ∉ [Path.base s ++ tail] := by
    simpa using (append_ne_up long (Path.base s)).symm
  rw [← foldl_down straight, ← place_append]
  unfold Path.child
  rw [Path.ofText_append long unbroken]
  show place start (Path.append p _) =
    place start ⟨(Path.append p _).root, (Path.append p _).names ++ _⟩
  unfold Path.append
  simp only
  split
  · rw [List.append_assoc]
  · rfl

/-- The last character of the last name of an address. -/
def lastChar (a : Address) : Option Char := a.getLast?.bind List.getLast?

/-- A file is told from another by the last character of the ending. -/
theorem lastChar_child_append {tail : Text} (long : 2 < tail.length) (unbroken : '/' ∉ tail)
    (start : Address) (p : Path) (s : Text) :
    lastChar (place start (p.child (s ++ tail))) = tail.getLast? := by
  have nonempty : tail ≠ [] := by
    rintro rfl
    cases long
  rw [place_child_append long unbroken, lastChar, List.getLast?_append, List.getLast?_singleton]
  show (Path.base s ++ tail).getLast? = _
  rw [List.getLast?_append_of_ne_nil _ nonempty]

/-- A single name leads from a directory into it, or above it, or nowhere else. -/
theorem place_child_cases {names : List Text} (straight : "..".toList ∉ names) {s : Text}
    (unbroken : '/' ∉ s) (start : Address) :
    names <+: place start ((⟨.slash, names⟩ : Path).child s) ∨
      (⟨.slash, names⟩ : Path).child s = ⟨.slash, names ++ ["..".toList]⟩ := by
  have front : names.foldl down [] = names := foldl_down straight []
  rw [Path.child_of_unbroken unbroken]
  by_cases up : s = "..".toList
  · subst up
    exact .inr rfl
  · refine .inl ?_
    show names <+: (names ++ _).foldl down []
    rw [List.foldl_append, front]
    split
    · exact List.prefix_rfl
    · rw [List.foldl_cons, down, if_neg up]
      exact List.prefix_append _ _

theorem walk_append (t : FileTree) (here : Address) (front back : List Text) :
    t.walk here (front ++ back) = t.walk here front >>= fun mid => t.walk mid back := by
  induction front generalizing here with
  | nil => rfl
  | cons name front ih =>
    rw [List.cons_append, walk, walk]
    cases t.get? here with
    | none => rfl
    | some node =>
      cases node with
      | file => rfl
      | directory =>
        simp only
        split
        · rfl
        · exact ih _

/-- The way up from a directory leads to a directory. -/
theorem directory_of_walk_up {t : FileTree} {here a : Address} {names : List Text}
    (reached : t.Reached here) (h : t.walk here (names ++ ["..".toList]) = .ok a) :
    t.get? a = some .directory := by
  rw [walk_append] at h
  cases front : t.walk here names with
  | error fault => rw [front] at h; cases h
  | ok mid =>
    obtain ⟨-, reached⟩ := walk_ok reached front
    rw [front] at h
    change t.walk mid ["..".toList] = .ok a at h
    rw [walk] at h
    split at h
    · cases h
    · cases h
    · rename_i directory
      rw [if_neg (by decide), if_pos rfl] at h
      cases h
      by_cases root : mid = []
      · subst root
        rfl
      · refine reached _ (List.dropLast_prefix mid) fun same => root ?_
        have := congrArg List.length same
        rw [List.length_dropLast] at this
        exact List.length_eq_zero_iff.1 (by omega)

theorem walk_of_resolve {t : FileTree} {start a : Address} {p : Path}
    (h : t.resolve start p = .ok a) :
    t.walk (if p.root = .relative then start else []) p.names = .ok a := by
  unfold resolve at h
  split at h
  · cases h
  · exact h

/-- The way to anything but a directory ends with a name that leads down. -/
theorem last_name_of_resolve {t : FileTree} {start a : Address} {p : Path}
    (home : t.Holds start .directory) (h : t.resolve start p = .ok a)
    (file : t.get? a ≠ some .directory) : ∃ last, p.names.getLast? = some last ∧
      last ≠ "..".toList := by
  have walked := walk_of_resolve h
  have reached : t.Reached (if p.root = .relative then start else []) := by
    split
    · exact home.reached
    · exact reached_root t
  rcases List.eq_nil_or_concat p.names with none | ⟨front, last, names⟩
  · rw [none] at walked
    cases walked
    exfalso
    apply file
    split
    · exact home.node
    · rfl
  · rw [List.concat_eq_append] at names
    refine ⟨last, by rw [names, List.getLast?_concat], ?_⟩
    rintro rfl
    rw [names] at walked
    exact file (directory_of_walk_up reached walked)

end FileTree

end FlowReport
