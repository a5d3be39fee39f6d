import FlowReport.Proofs.Pages
import FlowReport.Proofs.Stability

/-!
# The directories of a report

The pages go into one directory and the graphs come from another one beside it. Where the one can
be entered, a file of the other one is read as soon as it is there: what is read from the graphs
depends on the files there alone.
-/

namespace FlowReport

open FileTree

namespace Text

theorem split_append_mark {mark : Char} {s : Text} (unbroken : mark ∉ s) (rest : Text) :
    split mark (s ++ mark :: rest) = s :: split mark rest := by
  induction s with
  | nil => rw [List.nil_append, split, if_pos rfl]
  | cons c s ih =>
    rw [List.mem_cons, not_or] at unbroken
    rw [List.cons_append, split, if_neg (Ne.symm unbroken.1), ih unbroken.2]

/-- Pieces without the mark are found again. -/
theorem split_join_of_unbroken {mark : Char} {pieces : List Text} (nonempty : pieces ≠ [])
    (unbroken : ∀ piece ∈ pieces, mark ∉ piece) : split mark (join [mark] pieces) = pieces := by
  induction pieces with
  | nil => exact absurd rfl nonempty
  | cons piece pieces ih =>
    obtain ⟨head, tail⟩ := List.forall_mem_cons.1 unbroken
    cases pieces with
    | nil => exact split_append head []
    | cons next pieces =>
      rw [join, List.append_assoc, List.singleton_append, split_append_mark head,
        ih (List.cons_ne_nil _ _) tail]

end Text

namespace Path

/-- The names of a path are names that can be written in one. -/
def Proper (p : Path) : Prop := ∀ name ∈ p.names, name ≠ [] ∧ name ≠ ['.'] ∧ '/' ∉ name

theorem proper_ofText (s : Text) : (ofText s).Proper := by
  intro name member
  have kept := List.of_mem_filter (show name ∈ List.filter _ _ from member)
  rw [decide_eq_true_eq] at kept
  exact ⟨kept.1, kept.2, unbroken_names s name member⟩

theorem Proper.append {p q : Path} (hp : p.Proper) (hq : q.Proper) : (p ++ q).Proper := by
  show (Path.append p q).Proper
  unfold Path.append
  split
  · intro name member
    rcases List.mem_append.1 member with left | right
    · exact hp name left
    · exact hq name right
  · exact hq

theorem Proper.child {p : Path} (h : p.Proper) (s : Text) : (p.child s).Proper :=
  h.append (proper_ofText s)

/-- Where the names do not start with a slash, the slashes in front of them are the root. -/
theorem rootOf_text {names : Text} {c : Char} (first : names.head? = some c) (hc : c ≠ '/')
    (root : Root) : rootOf (Root.text root ++ names) = root := by
  obtain ⟨rest, rfl⟩ := List.head?_eq_some_iff.1 first
  cases root <;> simp [rootOf, Root.text, hc]

/-- A path that is written is cut into its names, behind one piece for each slash of the root. -/
theorem split_text {p : Path} (whole : ∀ name ∈ p.names, name ≠ [] ∧ '/' ∉ name)
    (nonempty : p.names ≠ []) : rootOf p.text = p.root ∧
      Text.split '/' p.text = (Root.text p.root).map (fun _ => []) ++ p.names := by
  obtain ⟨first, rest, names⟩ := List.exists_cons_of_ne_nil nonempty
  have head := whole first (names ▸ List.mem_cons_self)
  obtain ⟨c, tail, hfirst⟩ := List.exists_cons_of_ne_nil head.1
  have hc : c ≠ '/' := by
    rintro rfl
    exact head.2 (hfirst ▸ List.mem_cons_self)
  have written : (Text.join ['/'] p.names).head? = some c := by
    rw [names, hfirst]
    cases rest <;> rfl
  have pieces : Text.split '/' (Text.join ['/'] p.names) = p.names :=
    Text.split_join_of_unbroken nonempty fun name member => (whole name member).2
  have text : p.text = Root.text p.root ++ Text.join ['/'] p.names := by
    obtain ⟨more, same⟩ := List.head?_eq_some_iff.1 written
    rw [Path.text, same]
    cases p.root <;> rfl
  rw [text]
  refine ⟨rootOf_text written hc _, ?_⟩
  cases p.root <;> simp [Root.text, Text.split, pieces]

/-- The slashes of the root add no names. -/
theorem filter_pieces {names : List Text} (proper : ∀ name ∈ names, name ≠ [] ∧ name ≠ ['.'])
    (slashes : Text) : (slashes.map (fun _ => []) ++ names).filter
      (fun name => name ≠ [] ∧ name ≠ ['.']) = names := by
  have none : (slashes.map fun _ => ([] : Text)).filter
      (fun name => name ≠ [] ∧ name ≠ ['.']) = [] := by simp
  have kept : names.filter (fun name => name ≠ [] ∧ name ≠ ['.']) = names :=
    List.filter_eq_self.2 fun name member => decide_eq_true (proper name member)
  rw [List.filter_append, none, kept, List.nil_append]

/-- A path that is written is read as the same path. -/
theorem ofText_text {p : Path} (proper : p.Proper) (nonempty : p.names ≠ []) : ofText p.text = p := by
  obtain ⟨root, pieces⟩ := split_text
    (fun name member => ⟨(proper name member).1, (proper name member).2.2⟩) nonempty
  rw [ofText, root, pieces,
    filter_pieces fun name member => ⟨(proper name member).1, (proper name member).2.1⟩]

/-- A name with an ending of three characters has that ending. -/
theorem splitName_png {s : Text} (nonempty : s ≠ []) :
    splitName (s ++ ".png".toList) = (s, ".png".toList) := by
  have undotted : '.' ∉ "png".toList := by decide
  exact (splitName_dotted undotted).trans (if_neg (not_or.2 ⟨nonempty, by decide⟩))

end Path

namespace FileTree

/-- What holds along a list holds at its first member and along the others. -/
theorem forall_prefix_cons {α : Type} {P : List α → α → Prop} {first : α} {names : List α} :
    (∀ front name, front ++ [name] <+: first :: names → P front name) ↔
      P [] first ∧ ∀ front name, front ++ [name] <+: names → P (first :: front) name := by
  constructor
  · intro h
    refine ⟨h [] first (List.cons_prefix_cons.2 ⟨rfl, List.nil_prefix⟩), ?_⟩
    intro front name above
    exact h (first :: front) name (List.cons_prefix_cons.2 ⟨rfl, above⟩)
  · rintro ⟨start, rest⟩ front name above
    cases front with
    | nil =>
      obtain ⟨rfl, -⟩ := List.cons_prefix_cons.1 above
      exact start
    | cons c front =>
      obtain ⟨rfl, inside⟩ := List.cons_prefix_cons.1 above
      exact rest front name inside

/-- Where a walk ends well: every place that is left is a directory, and every name is short
enough. -/
theorem walk_eq_ok_iff {t : FileTree} {here a : Address} {names : List Text} :
    t.walk here names = .ok a ↔ a = names.foldl down here ∧
      ∀ front name, front ++ [name] <+: names →
        t.get? (front.foldl down here) = some .directory ∧ isTooLong name = false := by
  induction names generalizing here with
  | nil =>
    constructor
    · rintro ⟨⟩
      refine ⟨rfl, fun front name h => ?_⟩
      exact absurd (List.prefix_nil.1 h) (by simp)
    · rintro ⟨rfl, -⟩
      rfl
  | cons first names ih =>
    rw [walk, forall_prefix_cons]
    constructor
    · intro h
      split at h
      · cases h
      · cases h
      · rename_i directory
        split at h
        · cases h
        · rename_i short
          obtain ⟨same, rest⟩ := ih.1 h
          exact ⟨same, ⟨directory, Bool.eq_false_iff.2 short⟩, rest⟩
    · rintro ⟨same, ⟨directory, short⟩, rest⟩
      rw [show t.get? here = some .directory from directory]
      simp only [short, Bool.false_eq_true, if_false]
      exact ih.2 ⟨same, rest⟩

theorem read_eq_ok_iff {t : FileTree} {start : Address} {p : Path} {content : Bytes} :
    t.read start p = .ok content ↔
      ∃ a, t.resolve start p = .ok a ∧ t.get? a = some (.file content) := by
  unfold read
  cases found : t.resolve start p with
  | error fault => simp [bind, Except.bind]
  | ok a =>
    rcases there : t.get? a with _ | _ | other <;> simp [bind, Except.bind, there]

/-- The names of a path lead somewhere. -/
def Entered (t : FileTree) (start : Address) (p : Path) : Prop :=
  ∃ a, t.walk (if p.root = .relative then start else []) p.names = .ok a

theorem entered_iff {t : FileTree} {start : Address} {p : Path} :
    t.Entered start p ↔ ∀ front name, front ++ [name] <+: p.names →
      t.get? (place start ⟨p.root, front⟩) = some .directory ∧ isTooLong name = false := by
  constructor
  · rintro ⟨a, walked⟩
    exact (walk_eq_ok_iff.1 walked).2
  · intro h
    exact ⟨_, walk_eq_ok_iff.2 ⟨rfl, h⟩⟩

theorem resolve_eq_ok_iff {t : FileTree} {start a : Address} {p : Path} :
    t.resolve start p = .ok a ↔ ¬ pathLimit < (Utf8.encode p.text).length ∧
      a = place start p ∧ t.Entered start p := by
  unfold resolve
  split
  · rename_i long
    simp [long]
  · rename_i short
    simp only [short, not_false_eq_true, true_and]
    constructor
    · intro walked
      exact ⟨(walk_eq_ok_iff.1 walked).1, a, walked⟩
    · rintro ⟨rfl, b, walked⟩
      rw [walked, (walk_eq_ok_iff.1 walked).1]
      rfl

/-- In a directory beside one that can be entered, a file that is there can be read. -/
theorem read_beside {t t' : FileTree} {start : Address} {root : Root} {above : List Text}
    {entered name file : Text} {content : Bytes}
    (entry : t'.Entered start ⟨root, above ++ [entered]⟩) (closed : t'.Closed)
    (inside : file ≠ "..".toList)
    (same : t'.fileAt? (place start ⟨root, above ++ [name, file]⟩) =
      t.fileAt? (place start ⟨root, above ++ [name, file]⟩))
    (h : t.read start ⟨root, above ++ [name, file]⟩ = .ok content) :
    t'.read start ⟨root, above ++ [name, file]⟩ = .ok content := by
  obtain ⟨a, found, there⟩ := read_eq_ok_iff.1 h
  obtain ⟨short, rfl, way⟩ := resolve_eq_ok_iff.1 found
  have there : t'.get? (place start ⟨root, above ++ [name, file]⟩) = some (.file content) := by
    rw [← fileAt?_eq_some_iff, same, fileAt?_eq_some_iff.2 there]
  refine read_eq_ok_iff.2 ⟨_, resolve_eq_ok_iff.2 ⟨short, rfl, ?_⟩, there⟩
  have last : place start ⟨root, above ++ [name, file]⟩ =
      place start ⟨root, above ++ [name]⟩ ++ [file] := by
    have step : above ++ [name, file] = above ++ [name] ++ [file] := by simp
    rw [step]
    show List.foldl down _ (above ++ [name] ++ [file]) = _
    rw [List.foldl_append, List.foldl_cons, List.foldl_nil, down, if_neg inside]
    rfl
  rw [entered_iff] at way entry ⊢
  intro front next before
  refine ⟨?_, (way front next before).2⟩
  have split : above ++ [name, file] = above ++ [name] ++ [file] := by simp
  change front ++ [next] <+: above ++ [name, file] at before
  rw [split, List.prefix_concat_iff] at before
  rcases before with whole | before
  · -- the directory of the file is there because the file is
    obtain ⟨rfl, -⟩ := List.append_inj' whole rfl
    rw [last] at there
    exact closed.holds there |>.reached _ (List.prefix_append _ _) (by simp)
  · rw [List.prefix_concat_iff] at before
    rcases before with whole | before
    · obtain ⟨rfl, -⟩ := List.append_inj' whole rfl
      exact (entry front entered List.prefix_rfl).1
    · exact (entry front next (before.trans (List.prefix_append _ _))).1

theorem Entered.parent {t : FileTree} {start : Address} {root : Root} {names : List Text}
    {name : Text} (h : t.Entered start ⟨root, names ++ [name]⟩) : t.Entered start ⟨root, names⟩ := by
  rw [entered_iff] at h ⊢
  intro front next before
  exact h front next (before.trans (List.prefix_append _ _))

theorem entered_of_write {t t' : FileTree} {start : Address} {p : Path} {content : Bytes}
    (h : t.write start p content = .ok t') : t.Entered start p := by
  unfold FileTree.write at h
  cases found : t.resolve start p with
  | error fault => rw [found] at h; cases h
  | ok a => exact (resolve_eq_ok_iff.1 found).2.2

theorem Entered.put {t : FileTree} {start b : Address} {p : Path} {new : Node}
    (h : t.Entered start p) (accepts : t.Accepts b new) : (t.put b new).Entered start p := by
  rw [entered_iff] at h ⊢
  intro front name before
  obtain ⟨directory, short⟩ := h front name before
  refine ⟨?_, short⟩
  rw [get?_put_of_ne _ new, directory]
  rintro rfl
  exact accepts.not_directory directory

end FileTree

namespace World

variable {w₀ w : World} {p : Path}

theorem hasFile_iff : w.HasFile p ↔
    Action.hasNull p = false ∧ ∃ content, w.tree.read w.directory p = .ok content := by
  refine and_congr_right fun _ => exists_congr fun content => ?_
  rw [read_eq_ok_iff, look]
  split <;> simp_all

theorem stable_entered (w₀ : World) (p : Path) :
    Stable w₀ .everything fun w => Rests w₀ w ∧ w.tree.Entered w₀.directory p where
  stays h := h.1.stays
  log lines h := ⟨(stable_rests w₀).log lines h.1, h.2⟩
  call c h allowed := ⟨(stable_rests w₀).call c h.1 allowed, h.2⟩
  put h allowed accepts := ⟨(stable_rests w₀).put h.1 allowed accepts, h.2.put accepts⟩
  clear {w a} h free := by
    rw [h.1.closed.remove_free free]
    exact h

end World

/-- The name of the graph that a page shows, without its ending. -/
def Pane.graphName (function : Text) (step : Nat) (subStep : SubStep) : Text :=
  if step = 0 then function else function ++ "_" ++ Numeral.padded 4 step ++ subStep.letter

namespace Pane

theorem drawingName_eq (function : Text) (step : Nat) (subStep : SubStep) :
    drawingName function step subStep = graphName function step subStep ++ ".png".toList := by
  unfold drawingName graphName
  split <;> rfl

theorem unbroken_graphName {function : Text} (plain : '/' ∉ function) (step : Nat)
    (subStep : SubStep) : '/' ∉ graphName function step subStep := by
  have number : '/' ∉ Numeral.padded 4 step ++ subStep.letter :=
    Numeral.not_mem_padded_append (by decide) (by cases subStep <;> decide) 4 step
  unfold graphName
  split
  · exact plain
  · rw [List.append_assoc, List.append_assoc, List.mem_append, List.mem_append, not_or, not_or]
    exact ⟨plain, by decide, number⟩

theorem graphName_ne_nil {function : Text} (named : function ≠ []) (step : Nat)
    (subStep : SubStep) : graphName function step subStep ≠ [] := by
  unfold graphName
  split
  · exact named
  · simp [named]

end Pane

namespace Report

variable {r : Report} {start : Address}

theorem companion_eq {ending : Text} (long : 2 < ending.length) (unbroken : '/' ∉ ending)
    (path : Text) : Input.companion path ending =
      ⟨(Path.above (Input.base path)).root,
        (Path.above (Input.base path)).names ++ [Path.base (Input.base path) ++ ending]⟩ :=
  Path.ofText_append long unbroken _

/-- A file of the graphs. -/
theorem graphs_child {s : Text} (plain : '/' ∉ s) (long : 1 < s.length) :
    r.graphs.child s = ⟨(Path.above (Input.base r.path)).root,
      (Path.above (Input.base r.path)).names ++
        [Path.base (Input.base r.path) ++ "_graphs".toList, s]⟩ := by
  rw [Path.child_name plain long, graphs, companion_eq (by decide) (by decide), List.append_assoc]
  rfl

theorem place_output : place start r.output =
    place start (Path.above (Input.base r.path)) ++
      [Path.base (Input.base r.path) ++ "_explore".toList] := by
  have name : Path.base (Input.base r.path) ++ "_explore".toList ≠ "..".toList :=
    append_ne_up (by decide) _
  rw [output, companion_eq (by decide) (by decide), place_append,
    foldl_down (by simpa using name.symm)]

theorem place_graphs_child {s : Text} (plain : '/' ∉ s) (long : 2 < s.length) :
    place start (r.graphs.child s) =
      place start (Path.above (Input.base r.path)) ++
        [Path.base (Input.base r.path) ++ "_graphs".toList, s] := by
  have name : Path.base (Input.base r.path) ++ "_graphs".toList ≠ "..".toList :=
    append_ne_up (by decide) _
  rw [graphs_child plain (by omega), place_append,
    foldl_down (by simpa using ⟨name.symm, (ne_up_of_long long).symm⟩)]

theorem place_child_long {s : Text} (plain : '/' ∉ s) (long : 2 < s.length) (p : Path) :
    place start (p.child s) = place start p ++ [s] := by
  rw [Path.child_name plain (by omega), place_append,
    foldl_down (by simpa using (ne_up_of_long long).symm)]

/-- The address is not in the directory of the pages. -/
def Outside (r : Report) (start a : Address) : Prop := ¬ place start r.output <+: a

/-- The graphs are in another directory. -/
theorem outside_graphs {s : Text} (plain : '/' ∉ s) (long : 2 < s.length) :
    r.Outside start (place start (r.graphs.child s)) := by
  unfold Outside
  rw [place_output, place_graphs_child plain long, List.prefix_append_right_inj]
  intro above
  obtain ⟨same, -⟩ := List.cons_prefix_cons.1 above
  exact absurd (List.append_cancel_left same) (by decide)

/-- The pages of a function are in the directory of the pages, unless its name leads out of it. -/
theorem place_output_pagePlace {function : Text} (inner : Path.Inner 0 (Path.above function))
    (pane : Pane) (page : Nat) : place start r.output <+: r.pagePlace start function pane page := by
  rw [pagePlace_eq]
  exact (prefix_place_append (List.append_nil _).symm inner).trans (List.prefix_append _ _)

theorem place_images :
    place start (r.output.child "img") = place start r.output ++ ["img".toList] :=
  place_child_long (by decide) (by decide) _

/-- So are their images, which are one directory further down. -/
theorem place_output_imagePlace {function : Text} (inner : Path.Inner 1 (Path.above function))
    (page : Nat) : place start r.output <+: r.imagePlace start function page := by
  obtain ⟨ending, long, unbroken, -, name⟩ := imageName_eq function page
  rw [imagePlace, name, place_child_append long unbroken]
  exact (prefix_place_append place_images inner).trans (List.prefix_append _ _)

end Report

end FlowReport
