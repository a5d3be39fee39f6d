import FlowReport.Proofs.Effects
import FlowReport.Proofs.PageNames
import FlowReport.Report.Explore

/-!
# The pages that a run leaves

Each file of a page is written once, and nothing that is done later touches it, unless another page
has the same place. So if the places of the pages are apart, a run leaves in each place what was
made for it. `apart_iff` says when they are: no function may be named like another one with the tag
of a pane behind it.
-/

namespace FlowReport

open Assembly FileTree

namespace Report

/-- The address of a file of a page. -/
def pagePlace (r : Report) (start : Address) (function : Text) (pane : Pane) (page : Nat) :
    Address :=
  place start (r.output.child (pane.fileName function page))

/-- The address of the directory that the pages of a function go to: that of the report, unless
there are slashes in the name. -/
def pageHome (r : Report) (start : Address) (function : Text) : Address :=
  place start (r.output ++ Path.above function)

/-- The address of the image on a page. -/
def imagePlace (r : Report) (start : Address) (function : Text) (page : Nat) : Address :=
  place start ((r.output.child "img").child (Pane.imageName function page))

/-- The address of the list of functions. -/
def indexPlace (r : Report) (start : Address) : Address := place start (r.output.child "index.html")

theorem unbroken_ending (pane : Pane) (page : Nat) :
    '/' ∉ pane.tag ++ '_' :: (Numeral.padded 4 page ++ ".html".toList) := by
  have number : '/' ∉ Numeral.padded 4 page ++ ".html".toList :=
    Numeral.not_mem_padded_append (by decide) (by decide) 4 page
  intro member
  rcases List.mem_append.1 member with tag | member
  · cases pane <;> exact absurd tag (by decide)
  · exact number ((List.mem_cons.1 member).resolve_left (by decide))

theorem length_ending (pane : Pane) (page : Nat) :
    2 < (pane.tag ++ '_' :: (Numeral.padded 4 page ++ ".html".toList)).length := by
  rw [List.length_append, List.length_cons, List.length_append,
    show ".html".toList.length = 5 from rfl]
  omega

theorem pagePlace_eq (r : Report) (start : Address) (function : Text) (pane : Pane) (page : Nat) :
    r.pagePlace start function pane page =
      r.pageHome start function ++ [pane.fileName (Path.base function) page] := by
  rw [pagePlace, Pane.fileName_eq, List.append_assoc,
    place_child_append (length_ending pane page) (unbroken_ending pane page), pageHome,
    Pane.fileName_eq, List.append_assoc]

/-- When two files of pages have one place. -/
theorem pagePlace_same_iff {r : Report} {start : Address} {f g : Text} {k l : Pane} {p q : Nat} :
    r.pagePlace start f k p = r.pagePlace start g l q ↔
      r.pageHome start f = r.pageHome start g ∧
        ((Path.base f = Path.base g ∧ k = l) ∨ Pane.Clash (Path.base f) k (Path.base g) l ∨
          Pane.Clash (Path.base g) l (Path.base f) k) ∧ p = q := by
  rw [pagePlace_eq, pagePlace_eq, ← Pane.fileName_same_iff]
  constructor
  · exact fun h => ⟨List.append_inj_left' h rfl, (List.cons.inj (List.append_inj_right' h rfl)).1⟩
  · rintro ⟨home, name⟩
    rw [home, name]

theorem append_tag_ne (name : Text) {pane : Pane} (h : pane ≠ .overview) :
    name ≠ name ++ pane.tag := by
  intro same
  have := congrArg List.length same
  rw [Pane.tag_of_ne h, List.length_append, List.length_cons] at this
  omega

/-- The files of a page are in different places. -/
theorem pagePlace_ne {r : Report} {start : Address} {f : Text} {k l : Pane} {p q : Nat}
    (h : k ≠ l) : r.pagePlace start f k p ≠ r.pagePlace start f l q := by
  intro same
  obtain ⟨-, ⟨-, pane⟩ | ⟨-, ne, base⟩ | ⟨-, ne, base⟩, -⟩ := pagePlace_same_iff.1 same
  · exact h pane
  · exact append_tag_ne _ ne base
  · exact append_tag_ne _ ne base

/-- The files of a page: the overview and the panes that it shows. -/
def files (hasCode : Bool) : List Pane := .overview :: Pane.shown hasCode

theorem overview_not_mem_shown (hasCode : Bool) : Pane.overview ∉ Pane.shown hasCode := by
  cases hasCode <;> decide

/-- The files of different functions, panes or pages are in different places. -/
def Apart (r : Report) (start : Address) (names : List Text) (hasCode : Bool) : Prop :=
  ∀ f ∈ names, ∀ g ∈ names, ∀ k ∈ files hasCode, ∀ l ∈ files hasCode, ∀ p q,
    r.pagePlace start f k p = r.pagePlace start g l q → f = g ∧ k = l ∧ p = q

/-- Of two functions with one directory, no one is named like the other one with the tag of a pane
behind it, and their names differ behind the last slash. -/
def Untagged (r : Report) (start : Address) (names : List Text) (hasCode : Bool) : Prop :=
  ∀ f ∈ names, ∀ g ∈ names, r.pageHome start f = r.pageHome start g →
    (Path.base f = Path.base g → f = g) ∧
      ∀ pane ∈ Pane.shown hasCode, Path.base f ≠ Path.base g ++ pane.tag

/-- The pages are apart if and only if no name is another one with a tag. -/
theorem apart_iff {r : Report} {start : Address} {names : List Text} {hasCode : Bool} :
    Apart r start names hasCode ↔ Untagged r start names hasCode := by
  constructor
  · intro apart f hf g hg home
    have first : Pane.overview ∈ files hasCode := List.mem_cons_self
    constructor
    · intro base
      exact (apart f hf g hg _ first _ first 1 1
        (pagePlace_same_iff.2 ⟨home, .inl ⟨base, rfl⟩, rfl⟩)).1
    · intro pane hp base
      have ne : pane ≠ .overview := fun same => overview_not_mem_shown hasCode (same ▸ hp)
      exact ne (apart f hf g hg _ first pane (List.mem_cons_of_mem _ hp) 1 1
        (pagePlace_same_iff.2 ⟨home, .inr (.inl ⟨rfl, ne, base⟩), rfl⟩)).2.1.symm
  · intro tags f hf g hg k hk l hl p q same
    obtain ⟨home, ⟨base, pane⟩ | ⟨-, ne, base⟩ | ⟨-, ne, base⟩, page⟩ := pagePlace_same_iff.1 same
    · exact ⟨(tags f hf g hg home).1 base, pane, page⟩
    · exact absurd base ((tags f hf g hg home).2 l ((List.mem_cons.1 hl).resolve_left ne))
    · exact absurd base ((tags g hg f hf home.symm).2 k ((List.mem_cons.1 hk).resolve_left ne))

/-- Where no name has a slash, all pages are in one directory and the names are all that counts. -/
theorem untagged_iff_of_unbroken {r : Report} {start : Address} {names : List Text}
    {hasCode : Bool} (unbroken : ∀ f ∈ names, '/' ∉ f) :
    Untagged r start names hasCode ↔
      ∀ f ∈ names, ∀ g ∈ names, ∀ pane ∈ Pane.shown hasCode, f ≠ g ++ pane.tag := by
  have base : ∀ f ∈ names, Path.base f = f := fun f hf => Path.base_of_unbroken (unbroken f hf)
  have home : ∀ f ∈ names, r.pageHome start f = place start (r.output ++ ⟨.relative, []⟩) :=
    fun f hf => by rw [pageHome, Path.above_of_unbroken (unbroken f hf)]
  constructor
  · intro tags f hf g hg
    rw [← base f hf, ← base g hg]
    exact (tags f hf g hg ((home f hf).trans (home g hg).symm)).2
  · intro tags f hf g hg _
    rw [base f hf, base g hg]
    exact ⟨id, tags f hf g hg⟩

theorem lastChar_pagePlace (r : Report) (start : Address) (function : Text) (pane : Pane)
    (page : Nat) : lastChar (r.pagePlace start function pane page) = some 'l' := by
  rw [pagePlace_eq, lastChar, List.getLast?_append, List.getLast?_singleton]
  show (pane.fileName (Path.base function) page).getLast? = _
  rw [Pane.fileName_eq, ← List.cons_append, ← List.append_assoc,
    List.getLast?_append_of_ne_nil _ (by decide)]
  rfl

/-- The name of an image is that of the function with an ending. -/
theorem imageName_eq (function : Text) (page : Nat) : ∃ ending : Text, 2 < ending.length ∧
    '/' ∉ ending ∧ ending.getLast? = some 'g' ∧ Pane.imageName function page = function ++ ending := by
  refine ⟨"_cfa_".toList ++ (Numeral.padded 4 page ++ ".png".toList), ?_, ?_, ?_, ?_⟩
  · rw [List.length_append, show "_cfa_".toList.length = 5 from rfl]
    omega
  · intro member
    rcases List.mem_append.1 member with tag | number
    · exact absurd tag (by decide)
    · exact Numeral.not_mem_padded_append (by decide) (by decide) 4 page number
  · rw [← List.append_assoc, List.getLast?_append_of_ne_nil _ (by decide)]
    rfl
  · simp only [Pane.imageName, List.append_assoc]

/-- An image has another ending than a page. -/
theorem lastChar_imagePlace (start : Address) (p : Path) (function : Text) (page : Nat) :
    lastChar (place start (p.child (Pane.imageName function page))) = some 'g' := by
  obtain ⟨ending, long, unbroken, last, name⟩ := imageName_eq function page
  rw [name, lastChar_child_append long unbroken, last]

theorem lastChar_indexPlace (r : Report) (start : Address) :
    lastChar (r.indexPlace start) = some 'l' := by
  have last : lastChar (place start (r.output.child ([] ++ "index.html".toList))) =
      "index.html".toList.getLast? := lastChar_child_append (by decide) (by decide) start r.output []
  exact last

/-- The list of functions is no page. -/
theorem index_ne_pagePlace (r : Report) (start : Address) (function : Text) (pane : Pane)
    (page : Nat) :
    place start (r.output.child "index.html") ≠ r.pagePlace start function pane page := by
  have index : place start (r.output.child ([] ++ "index.html".toList)) =
      place start (r.output ++ Path.above []) ++ [Path.base [] ++ "index.html".toList] :=
    place_child_append (by decide) (by decide) start r.output []
  rw [List.nil_append] at index
  rw [index, pagePlace_eq]
  intro same
  have name := (List.cons.inj (List.append_inj_right' same rfl)).1
  rw [Pane.fileName_eq] at name
  have mark : '_' ∈ Path.base [] ++ "index.html".toList := by
    rw [name]
    exact List.mem_append_right _ List.mem_cons_self
  exact absurd mark (by decide)

end Report

end FlowReport
