import FlowReport.Proofs.PageRuns
import Mathlib.Data.List.Permutation

/-!
# Whole runs of a report

A run goes through the functions, and for each one through its pages. What it leaves in the files of
a page is what is shown there, as long as the pages of all functions are apart: then no later step
is about the same file.
-/

namespace FlowReport.Report

open Assembly FileTree FlowReport.Action World

variable {w₀ : World} {a : Address} {node : Node} {r : Report} {f : Function}
  {code : Option Text}

/-- The wanted functions that have a body: without names all that have one. -/
def written (r : Report) (names : List Text) : List Function :=
  r.assembly.funcs.filter fun f => (names = [] ∨ names.contains f.name) ∧ f.blocks ≠ []

theorem filter_isWanted (r : Report) (names : List Text) :
    ((r.assembly.funcs.filter (isWanted names)).filter fun f => !f.blocks.isEmpty) =
      r.written names := by
  rw [written, List.filter_filter]
  refine List.filter_congr fun f _ => ?_
  rw [Bool.eq_iff_iff]
  simp [isWanted, and_comm]

/-- The primitives that are read for a function. -/
def Loads (w : World) (r : Report) (function : Text) (prims : List Primitive) : Prop :=
  ∃ w', perform (PrimitiveFile.load r.graphs function) w = (.ok prims, w')

theorem Loads.unique {w : World} {function : Text} {prims prims' : List Primitive}
    (h : Loads w r function prims) (h' : Loads w r function prims') : prims = prims' := by
  obtain ⟨v, ran⟩ := h
  obtain ⟨v', ran'⟩ := h'
  rw [ran] at ran'
  cases ran'
  rfl

/-- The run of a function is that of its pages, once its primitives are read. -/
theorem perform_exploreFunction {debug : Option Function} {prims : List Primitive} {v start : World}
    (loaded : perform (PrimitiveFile.load r.graphs f.name) v = (.ok prims, start))
    (found : r.debugFunction f code = .ok debug) : perform (r.exploreFunction f code) v =
      perform ((Pagination.pages prims).forM (r.explorePage f debug code (Pagination.count prims)))
        start := by
  have debugged : perform (Action.ofExcept (r.debugFunction f code)) start = (.ok debug, start) := by
    rw [perform_ofExcept, found]
  exact (perform_bind_ok loaded).trans (perform_bind_ok debugged)

/-- What a run of a function that succeeds went through. -/
theorem perform_exploreFunction_iff {v w : World} :
    perform (r.exploreFunction f code) v = (.ok (), w) ↔ ∃ prims debug start,
      perform (PrimitiveFile.load r.graphs f.name) v = (.ok prims, start) ∧
      r.debugFunction f code = .ok debug ∧ perform ((Pagination.pages prims).forM
        (r.explorePage f debug code (Pagination.count prims))) start = (.ok (), w) := by
  constructor
  · intro ran
    obtain ⟨prims, start, loaded, ran⟩ := perform_bind_iff.1 ran
    obtain ⟨debug, found, ran⟩ := perform_ofExcept_bind_iff.1 ran
    exact ⟨prims, debug, start, loaded, found, ran⟩
  · rintro ⟨prims, debug, start, loaded, found, ran⟩
    rw [perform_exploreFunction loaded found, ran]

/-- The run of a report comes to a function: the source code is read, the functions are chosen, and
those before it are done. -/
structure ComesToFunction (w₀ : World) (r : Report) (names : List Text) (code : Option Text)
    (f : Function) (v : World) : Prop where
  initialized : r.templates ≠ none
  reached : ∃ w₁ start, perform r.readSource w₀ = (.ok code, w₁) ∧
    perform (r.selected names) w₁ = (.ok (r.assembly.funcs.filter (isWanted names)), start) ∧
    Reaches (fun g => r.exploreFunction g code) start (r.written names) f v

/-- The run of a function that starts in the world `v` comes to a page: the primitives are read, and the
pages before it are made. -/
def ComesToPage (r : Report) (f : Function) (debug : Option Function) (code : Option Text)
    (prims : List Primitive) (page : Page Primitive) (v w : World) : Prop :=
  ∃ start, perform (PrimitiveFile.load r.graphs f.name) v = (.ok prims, start) ∧
    Reaches (r.explorePage f debug code (Pagination.count prims)) start (Pagination.pages prims) page w

/-- All files of a function hold what is shown in them after a run of the function that starts in the
world `v`: the pages are those for the primitives that are read there, and each file is made from what
the run finds where it comes to the page. -/
def Written (w₀ : World) (r : Report) (code : Option Text) (f : Function) (v w : World) : Prop :=
  ∃ prims debug, Loads v r f.name prims ∧ r.debugFunction f code = .ok debug ∧
    ∀ page ∈ Pagination.pages prims, ∃ start u found,
      ComesToPage r f debug code prims page v start ∧
      Finds r f debug code (Pagination.count prims) page start u found ∧
      ∀ pane ∈ files code.isSome, Shows w₀ r f code (Pagination.count prims) page found pane w

/-- What keeps all files of a function keeps what they show. -/
theorem preserves_written {α : Type} {x : Action α} {v : World}
    (keep : ∀ pane ∈ files code.isSome, ∀ page bytes, Preserves (Keeps w₀
      (r.pagePlace w₀.directory f.name pane page) (.file bytes)) x) :
    Preserves (Written w₀ r code f v) x := by
  rintro w ⟨prims, debug, loads, debugged, shows⟩
  refine ⟨prims, debug, loads, debugged, ?_⟩
  intro page hpage
  obtain ⟨start, u, found, comes, finds, shows⟩ := shows page hpage
  exact ⟨start, u, found, comes, finds, fun pane hpane =>
    preserves_shows (keep pane hpane page.number) w (shows pane hpane)⟩

theorem numbers_distinct {α : Type} (prims : List α) :
    (Pagination.pages prims).Pairwise fun p q => p.number ≠ q.number := by
  refine List.pairwise_map.2 (List.nodup_range.imp fun ne same => ne ?_)
  exact Nat.succ_injective same

theorem preserves_firstFile? {I : World → Prop} (paths : List Path) :
    Preserves I (Input.firstFile? paths) := by
  induction paths with
  | nil => exact .pure _
  | cons p paths ih => exact preserves_isFile.bind fun _ => .ite (fun _ => .pure _) fun _ => ih

/-- Choosing the wanted functions logs what is left out. -/
theorem preserves_selected_of {I : World → Prop}
    (logged : ∀ level topic message, Preserves I (Action.log level topic message))
    (names : List Text) : Preserves I (r.selected names) := by
  refine (Preserves.forM fun _ _ => logged _ _ _).bind ?_
  intro _
  exact (Preserves.forM fun _ _ => logged _ _ _).bind fun _ => .pure _

theorem ensures_selected {I : World → Prop} (names : List Text) : Ensures I (r.selected names)
    fun functions _ => functions = r.assembly.funcs.filter (isWanted names) := by
  intro w functions w' _ ran
  obtain ⟨_, _, -, ran⟩ := perform_bind_iff.1 ran
  obtain ⟨_, _, -, ran⟩ := perform_bind_iff.1 ran
  cases ran
  rfl

section Stable

variable {s : Scope} {I : World → Prop} (stable : Stable w₀ s I)

include stable

theorem preserves_load {directory : Path} {function : Text} :
    Preserves I (PrimitiveFile.load directory function) := by
  refine (preserves_log stable _ _ _).bind ?_
  intro _
  refine preserves_readText.bind ?_
  intro text
  refine (Preserves.ofExcept _).bind ?_
  intro prims
  exact (preserves_log stable _ _ _).bind fun _ => .pure _

/-- A function keeps what all of its pages keep. -/
theorem preserves_exploreFunction_of
    (pages : ∀ (prims : List Primitive) debug, ∀ page ∈ Pagination.pages prims,
      Preserves I (r.explorePage f debug code (Pagination.count prims) page)) :
    Preserves I (r.exploreFunction f code) := by
  refine (preserves_load stable).bind ?_
  intro prims
  refine (Preserves.ofExcept _).bind ?_
  intro debug
  exact Preserves.forM (pages prims debug)

/-- The pages of a function keep what the steps of none of them touch. -/
theorem preserves_exploreFunction
    (admits : ∀ prims : List Primitive, ∀ page ∈ Pagination.pages prims,
      r.Admits w₀ s I f.name code.isSome page) :
    Preserves I (r.exploreFunction f code) :=
  preserves_exploreFunction_of stable fun prims _ page member =>
    preserves_explorePage stable (admits prims page member)

theorem preserves_readSource : Preserves I r.readSource := by
  refine (preserves_firstFile? _).bind ?_
  intro found
  cases found with
  | none => exact .pure _
  | some path =>
    exact (preserves_log stable _ _ _).bind fun _ => preserves_readLenient.bind fun _ => .pure _

theorem preserves_selected (names : List Text) : Preserves I (r.selected names) :=
  preserves_selected_of (preserves_log stable) names

theorem preserves_writeIndex {functions : List Text}
    (puts : ∀ bytes, s.puts (place w₀.directory (r.output.child "index.html")) (.file bytes)) :
    Preserves I (r.writeIndex functions) :=
  preserves_fill_write stable puts

end Stable

/-- The pages of a function keep what none of their files is. -/
theorem keeps_exploreFunction (safe : w₀.Safe a node) (straight : "..".toList ∉ w₀.temporary)
    (other : node = .directory ∨
      ∀ pane ∈ files code.isSome, ∀ page, r.pagePlace w₀.directory f.name pane page ≠ a) :
    Preserves (Keeps w₀ a node) (r.exploreFunction f code) := by
  apply preserves_exploreFunction (stable_keeps w₀ a node)
  intro prims page _
  exact admits_keeps safe straight (other.imp_right fun ne pane member => ne pane member _)

/-- The run of a function that succeeds leaves all files of all its pages. -/
theorem ensures_exploreFunction {v : World} (straight : "..".toList ∉ w₀.temporary)
    (spares : ∀ pane page, w₀.Spares (r.pagePlace w₀.directory f.name pane page))
    (stays : Stays w₀ v) :
    Ensures (· = v) (r.exploreFunction f code) fun _ => Written w₀ r code f v := by
  intro v' _ w same ran
  obtain rfl : v = v' := same.symm
  obtain ⟨prims, debug, v₁, loaded, debugged, ran⟩ := perform_exploreFunction_iff.1 ran
  have entered := Ensures.of_preserves (preserves_load (stable_stays w₀)) _ _ _ stays loaded
  have safe : ∀ pane page bytes,
      w₀.Safe (r.pagePlace w₀.directory f.name pane page) (.file bytes) :=
    fun pane page _ => .inr ⟨spares pane page, lastChar_pagePlace _ _ _ _ _⟩
  have each : ∀ page start, Reaches (r.explorePage f debug code (Pagination.count prims)) v₁
      (Pagination.pages prims) page start → Ensures (· = start)
        (r.explorePage f debug code (Pagination.count prims) page) fun _ w => ∃ start u found,
          ComesToPage r f debug code prims page v start ∧
          Finds r f debug code (Pagination.count prims) page start u found ∧
          ∀ pane ∈ files code.isSome, Shows w₀ r f code (Pagination.count prims) page found pane w := by
    intro page start reached
    have here := reached.keeps (fun _ _ => keeps_explorePage (.inl rfl) straight (.inl rfl)) entered
    refine (ensures_explorePage straight (fun _ _ => draws_keeps (safe _ _ _)) here).mono
      (fun _ h => h) ?_
    rintro _ w ⟨u, found, finds, shows⟩
    exact ⟨start, u, found, ⟨v₁, loaded, reached⟩, finds, shows⟩
  refine ⟨prims, debug, ⟨v₁, loaded⟩, debugged, Ensures.forM each ?_ _ _ _ rfl ran⟩
  -- a page that was written is left alone by the later ones, which have other numbers
  refine (numbers_distinct prims).imp ?_
  rintro page later ne w ⟨start, u, found, comes, finds, shows⟩
  refine ⟨start, u, found, comes, finds, fun pane member => ?_⟩
  refine preserves_shows (fun bytes => ?_) w (shows pane member)
  exact keeps_explorePage (safe _ _ _) straight
    (.inr fun other _ same => ne (pagePlace_same_iff.1 same).2.2.symm)

/-- The functions of a run keep each other's files if their pages are apart. -/
theorem ensures_functions {functions : List Function} {start : World}
    (straight : "..".toList ∉ w₀.temporary)
    (spares : ∀ f ∈ functions, ∀ pane page,
      w₀.Spares (r.pagePlace w₀.directory f.name pane page))
    (distinct : functions.Pairwise fun f g => f.name ≠ g.name)
    (apart : Apart r w₀.directory (functions.map (·.name)) code.isSome) (stays : Stays w₀ start) :
    Ensures (· = start) (functions.forM fun f => r.exploreFunction f code) fun _ w =>
      ∀ f ∈ functions, ∃ v, Reaches (fun g => r.exploreFunction g code) start functions f v ∧
        Written w₀ r code f v w := by
  refine Ensures.forM ?_ ?_
  · intro f v reached
    have here := reached.keeps
      (fun _ _ => keeps_exploreFunction (.inl rfl) straight (.inl rfl)) stays
    exact (ensures_exploreFunction straight (spares f reached.mem) here).mono (fun _ h => h)
      fun _ _ done => ⟨v, reached, done⟩
  · apply distinct.imp_of_mem
    rintro f g hf hg ne w ⟨v, reached, done⟩
    refine ⟨v, reached, preserves_written ?_ w done⟩
    intro pane hpane page bytes
    apply keeps_exploreFunction (.inr ⟨spares f hf pane page, lastChar_pagePlace _ _ _ _ _⟩) straight
    right
    intro other hother number same
    have names : g.name = f.name := (apart _ (List.mem_map_of_mem hg) _ (List.mem_map_of_mem hf)
      other hother pane hpane number page same).1
    exact ne names.symm

/-- What a run that succeeds went through. -/
structure Explored (w₀ : World) (r : Report) (names : List Text) (code : Option Text)
    (start behind w : World) : Prop where
  initialized : r.templates ≠ none
  source : ∃ w₁, perform r.readSource w₀ = (.ok code, w₁) ∧
    perform (r.selected names) w₁ = (.ok (r.assembly.funcs.filter (isWanted names)), start)
  pages : perform ((r.written names).forM fun f => r.exploreFunction f code) start = (.ok (), behind)
  index : perform (r.writeIndex ((r.written names).map (·.name))) behind = (.ok (), w)

theorem explored_of_explore {names done : List Text} {w : World}
    (ran : perform (r.explore names) w₀ = (.ok done, w)) :
    done = (r.written names).map (·.name) ∧ ∃ code start behind,
      Explored w₀ r names code start behind w := by
  unfold explore at ran
  extract_lets rest at ran
  split at ran
  · cases ran
  rename_i initialized
  obtain ⟨code, w₁, source, ran⟩ := perform_bind_iff.1 ran
  obtain ⟨functions, start, selected, ran⟩ := perform_bind_iff.1 ran
  obtain ⟨_, behind, pages, ran⟩ := perform_bind_iff.1 ran
  obtain ⟨_, w₂, index, ran⟩ := perform_bind_iff.1 ran
  cases ran
  obtain rfl := ensures_selected (I := fun _ => True) names _ _ _ trivial selected
  rw [filter_isWanted] at pages index ⊢
  exact ⟨rfl, code, start, behind, by simpa using initialized, ⟨w₁, source, selected⟩, pages, index⟩

/-- What is kept before the first page is there when the first function is come to. -/
theorem Explored.at_start {names : List Text} {start behind w : World} {s : Scope} {I : World → Prop}
    (h : Explored w₀ r names code start behind w) (stable : Stable w₀ s I) (before : I w₀) :
    I start := by
  obtain ⟨w₁, source, selected⟩ := h.source
  have read := Ensures.of_preserves (preserves_readSource stable) _ _ _ before source
  exact Ensures.of_preserves (preserves_selected stable names) _ _ _ read selected

/-- If the pages of its functions are apart, a run that succeeds leaves in all their files what is shown
in them. -/
theorem Explored.written {names : List Text} {start behind w : World}
    (h : Explored w₀ r names code start behind w) (stays : Stays w₀ w₀)
    (straight : "..".toList ∉ w₀.temporary)
    (spares : ∀ f ∈ r.written names, ∀ pane page,
      w₀.Spares (r.pagePlace w₀.directory f.name pane page))
    (distinct : (r.written names).Pairwise fun f g => f.name ≠ g.name)
    (apart : Apart r w₀.directory ((r.written names).map (·.name)) code.isSome) :
    ∀ f ∈ r.written names, ∃ v, ComesToFunction w₀ r names code f v ∧ Written w₀ r code f v w := by
  intro f member
  have before : Stays w₀ start := h.at_start (stable_stays w₀) stays
  obtain ⟨v, reached, done⟩ :=
    ensures_functions straight spares distinct apart before _ _ _ rfl h.pages f member
  obtain ⟨w₁, source, selected⟩ := h.source
  refine ⟨v, ⟨h.initialized, w₁, start, source, selected, reached⟩, ?_⟩
  refine Ensures.of_preserves (preserves_written fun pane _ page bytes => ?_) _ _ _ done h.index
  exact preserves_writeIndex (stable_keeps _ _ _)
    fun _ => .inr (.inr (index_ne_pagePlace _ _ _ _ _))

end FlowReport.Report
