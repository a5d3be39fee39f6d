import FlowReport.Proofs.Completeness
import FlowReport.Proofs.Faults
import FlowReport.Proofs.Highlighting

/-!
# Pages that fail

A page stops before it writes anything if a node of its primitive names no block, or if the decompiler
fails. Behind that only a fault can stop it. So where there is no fault, the first primitive with a
node that names no block decides which pages there are: all pages before the one that merges it.
-/

namespace FlowReport

open Assembly FileTree FlowReport.Action World

namespace Report

variable {w₀ w w' : World} {r : Report} {f : Function} {debug : Option Function}
  {code : Option Text} {count : Nat} {page : Page Primitive} {prims : List Primitive} {e : Error}

/-- The node names a block of the function, and of the function that the source code belongs to. -/
def NodeFound (f : Function) (debug : Option Function) (node : WideText) : Prop :=
  Highlight.Names f node ∧ ∀ g, debug = some g → Highlight.Names g node

/-- All nodes of a primitive name blocks. -/
def Resolves (f : Function) (debug : Option Function) (prim : Primitive) : Prop :=
  ∀ node ∈ prim.nodes, NodeFound f debug node

/-- What stops the highlighting is a node of the primitive that names no block. -/
theorem highlights_eq_error (located : Highlight.Located f)
    (same : ∀ g, debug = some g → g.name = f.name) (h : highlights f debug page = .error e) :
    ∃ prim, page.active = some prim ∧ ∃ node ∈ prim.nodes, ¬ NodeFound f debug node ∧
      e = .noBlock node f.name := by
  unfold highlights at h
  split at h
  · cases h
  rename_i prim active
  refine ⟨prim, active, ?_⟩
  rcases bind_eq_error.1 h with failed | ⟨ranges, -, h⟩
  · have stops := (Highlight.assembly_eq_error_iff located).1 failed
    obtain ⟨node, member, unnamed, here⟩ := stops.exists_unnamed
    exact ⟨node, member, fun found => unnamed found.1, here⟩
  cases debug with
  | none => cases h
  | some g =>
    rcases bind_eq_error.1 h with failed | ⟨lines, -, h⟩
    · have stops := Highlight.source_eq_error_iff.1 failed
      obtain ⟨node, member, unnamed, here⟩ := stops.exists_unnamed
      exact ⟨node, member, fun found => unnamed (found.2 g rfl), same g rfl ▸ here⟩
    · cases h

/-- Where the highlighting succeeds, the nodes name blocks. -/
theorem resolves_of_highlights {lines : List LineRange × List LineRange} {prim : Primitive}
    (h : highlights f debug page = .ok lines) (active : page.active = some prim) :
    Resolves f debug prim := by
  unfold highlights at h
  rw [active] at h
  obtain ⟨ranges, assembly, h⟩ := bind_eq_ok.1 h
  refine fun node member => ⟨Highlight.names_of_assembly assembly node member, ?_⟩
  rintro g rfl
  obtain ⟨lines, source, -⟩ := bind_eq_ok.1 h
  exact Highlight.names_of_source source node member

/-- A page that stops without a fault stops at a node and leaves the world as it was. -/
theorem perform_explorePage_error (ready : r.templates = some Templates.shipped)
    (ran : perform (r.explorePage f debug code count page) w = (.error e, w'))
    (fine : ¬ e.IsFault) : highlights f debug page = .error e ∧ w' = w := by
  rcases perform_bind_error_iff.1 ran with stopped | ⟨lines, mid, -, ran⟩
  · rw [perform_ofExcept, Prod.mk.injEq] at stopped
    exact ⟨stopped.1, stopped.2.symm⟩
  rcases perform_bind_error_iff.1 ran with stopped | ⟨output, mid', -, stopped⟩
  · exact absurd (Toolchain.faulty_decompile _ _ _ _ _ _ _ stopped) fine
  · exact absurd (faulty_writePage ready _ _ _ _ _ _ _ _ _ stopped) fine

theorem resolves_of_pages {pages : List (Page Primitive)}
    (ran : perform (pages.forM (r.explorePage f debug code count)) w = (.ok (), w')) :
    ∀ page ∈ pages, ∀ prim, page.active = some prim → Resolves f debug prim := by
  intro page member prim active
  obtain ⟨v, v', -, ran⟩ := exists_reaches ran page member
  obtain ⟨lines, found, -⟩ := perform_ofExcept_bind_iff.1 ran
  exact resolves_of_highlights found active

/-- Pages that stop without a fault stop behind some first pages, at a node of the primitive that the
next page merges. -/
theorem pages_stop_at (ready : r.templates = some Templates.shipped) (located : Highlight.Located f)
    (same : ∀ g, debug = some g → g.name = f.name)
    (ran : perform ((Pagination.pages prims).forM (r.explorePage f debug code count)) w =
      (.error e, w')) (fine : ¬ e.IsFault) :
    ∃ n, 0 < n ∧ n ≤ 2 * prims.length ∧
      perform (((Pagination.pages prims).take n).forM (r.explorePage f debug code count)) w =
        (.ok (), w') ∧
      ∃ prim, prims[(n + 1) / 2 - 1]? = some prim ∧ ∃ node ∈ prim.nodes,
        ¬ NodeFound f debug node ∧ e = .noBlock node f.name := by
  obtain ⟨page, mid, reached, stopped⟩ := perform_forM_error_iff.1 ran
  obtain ⟨early, late, split, done⟩ := reaches_iff.1 reached
  obtain ⟨highlighted, rfl⟩ := perform_explorePage_error ready stopped fine
  obtain ⟨prim, active, stop⟩ := highlights_eq_error located same highlighted
  have length : early.length < (Pagination.pages prims).length := by
    rw [split, List.length_append, List.length_cons]
    omega
  have here : page = Pagination.page prims (early.length + 1) := by
    rw [← Pagination.getElem_pages prims length]
    simp [split]
  rw [here, Pagination.active_page prims (Nat.le_add_left 1 _)] at active
  split at active
  · cases active
  rename_i later
  rw [Pagination.length_pages] at length
  refine ⟨early.length, by omega, by omega, ?_, prim, active, stop⟩
  rw [split, List.take_left]
  exact done

/-- Without a fault the pages stop at the first primitive that does not resolve, if there is one. -/
theorem pages_stop (ready : r.templates = some Templates.shipped) (located : Highlight.Located f)
    (same : ∀ g, debug = some g → g.name = f.name) {result : Except Error Unit}
    (ran : perform ((Pagination.pages prims).forM (r.explorePage f debug code count)) w =
      (result, w')) (fine : Faultless result) :
    ((∀ prim ∈ prims, Resolves f debug prim) → result = .ok ()) ∧
    ∀ before prim behind, prims = before ++ prim :: behind → (∀ p ∈ before, Resolves f debug p) →
      ¬ Resolves f debug prim →
        (∃ node ∈ prim.nodes, ¬ NodeFound f debug node ∧ result = .error (.noBlock node f.name)) ∧
        perform (((Pagination.pages prims).take (2 * before.length + 1)).forM
          (r.explorePage f debug code count)) w = (.ok (), w') := by
  constructor
  · intro all
    cases result with
    | ok u => rfl
    | error e =>
      obtain ⟨n, -, -, -, prim, there, node, member, missing, -⟩ :=
        pages_stop_at ready located same ran (fine e rfl)
      exact absurd (all prim (List.mem_of_getElem? there) node member) missing
  · intro before prim behind split resolved unresolved
    have length : prims.length = before.length + (behind.length + 1) := by
      rw [split, List.length_append, List.length_cons]
    have merged : (Pagination.page prims (2 * before.length + 2)).active = some prim := by
      have half : (2 * before.length + 2) / 2 - 1 = before.length := by omega
      rw [Pagination.active_page prims (by omega), if_neg (by omega), half, split]
      simp
    cases result with
    | ok u =>
      have member : Pagination.page prims (2 * before.length + 2) ∈ Pagination.pages prims :=
        Pagination.mem_pages.2 ⟨_, by omega, by omega, rfl⟩
      exact absurd (resolves_of_pages ran _ member prim merged) unresolved
    | error e =>
      obtain ⟨n, pos, inside, done, prim', there, node, member, missing, named⟩ :=
        pages_stop_at ready located same ran (fine e rfl)
      have low : ¬ (n + 1) / 2 - 1 < before.length := by
        intro early
        rw [split, List.getElem?_append_left early] at there
        exact missing (resolved prim' (List.mem_of_getElem? there) node member)
      have high : ¬ 2 * before.length + 2 ≤ n := by
        intro late
        have member : Pagination.page prims (2 * before.length + 2) ∈
            (Pagination.pages prims).take n :=
          (Pagination.mem_take_pages (by omega)).2 ⟨_, by omega, late, rfl⟩
        exact unresolved (resolves_of_pages done _ member prim merged)
      obtain rfl : n = 2 * before.length + 1 := by omega
      have half : (2 * before.length + 1 + 1) / 2 - 1 = before.length := by omega
      rw [half, split] at there
      obtain rfl : prim = prim' := by simpa using there
      exact ⟨⟨node, member, missing, named ▸ rfl⟩, done⟩

/-- A run of a function writes the first pages and nothing else. -/
def FirstPages (w₀ : World) (r : Report) (f : Function) (debug : Option Function)
    (code : Option Text) (prims : List Primitive) (last : Nat) (w : World) : Prop :=
  Writes w₀ (PagesFile w₀ r f.name code.isSome prims last)
    (PagesContent w₀ r f debug code prims last w₀) w

theorem name_of_debugFunction (found : r.debugFunction f code = .ok debug) :
    ∀ g, debug = some g → g.name = f.name := by
  rintro g rfl
  unfold debugFunction at found
  split at found
  · cases found
  unfold Module.function at found
  split at found
  · rename_i g' there
    cases found
    unfold Module.func? at there
    have named := List.find?_some there
    exact of_decide_eq_true named
  · cases found

/-- Without a fault a function gets its pages up to the first primitive that does not resolve, if there
is one. -/
theorem exploreFunction_stops (ready : r.templates = some Templates.shipped)
    (located : Highlight.Located f) (settled : w₀.Settled) (tame : w₀.Tame r.config.layouter)
    (plain : '/' ∉ f.name) (named : f.name ≠ []) (loads : Loads w₀ r f.name prims)
    (found : r.debugFunction f code = .ok debug) {result : Except Error Unit}
    (ran : perform (r.exploreFunction f code) w₀ = (result, w))
    (fine : Faultless result) :
    ((∀ prim ∈ prims, Resolves f debug prim) → result = .ok () ∧
      FirstPages w₀ r f debug code prims (2 * prims.length + 1) w) ∧
    ∀ before prim behind, prims = before ++ prim :: behind → (∀ p ∈ before, Resolves f debug p) →
      ¬ Resolves f debug prim →
        (∃ node ∈ prim.nodes, ¬ NodeFound f debug node ∧ result = .error (.noBlock node f.name)) ∧
        FirstPages w₀ r f debug code prims (2 * before.length + 1) w := by
  obtain ⟨w₁, loaded⟩ := loads
  have pages : perform ((Pagination.pages prims).forM
      (r.explorePage f debug code (Pagination.count prims))) w₁ = (result, w) := by
    rwa [perform_exploreFunction loaded found] at ran
  obtain ⟨all, first⟩ := pages_stop ready located (name_of_debugFunction found) pages fine
  -- what some of the pages write
  have writes : ∀ {last}, 0 < last → last ≤ 2 * prims.length + 1 →
      perform (((Pagination.pages prims).take last).forM
        (r.explorePage f debug code (Pagination.count prims))) w₁ = (.ok (), w) →
          FirstPages w₀ r f debug code prims last w := by
    intro last pos inside done
    have still := Ensures.of_preserves (preserves_load (stable_still w₀ w₀.tree)) _ _ _
      ⟨settled.rests, rfl⟩ loaded
    have nonempty : (Pagination.pages prims).take last ≠ [] := by
      rw [← List.length_pos_iff, List.length_take, Pagination.length_pages]
      omega
    have ground : Grounded w₀ r w₀ := ⟨⟨settled.rests, fun _ _ => rfl⟩,
      entered_of_pages tame.confined settled.straight plain nonempty _ _ _ still done⟩
    have now := Ensures.of_preserves (preserves_load (stable_grounded w₀ r)) _ _ _ ground loaded
    have wrote := ensures_pages_files tame settled.straight ground plain named loaded now inside
      _ _ _ rfl done
    exact ((writes_nothing still.same).trans wrote).congr (by simp) fun a bytes h => h.resolve_left id
  constructor
  · intro resolved
    obtain rfl := all resolved
    refine ⟨rfl, writes (by omega) le_rfl ?_⟩
    rwa [List.take_of_length_le (Pagination.length_pages prims).le]
  · intro before prim behind split resolved unresolved
    obtain ⟨stopped, done⟩ := first before prim behind split resolved unresolved
    refine ⟨stopped, writes (by omega) ?_ done⟩
    rw [split, List.length_append, List.length_cons]
    omega

/-- A page stops before anything is written: its highlighting does, or its decompiling. -/
def Stops (w : World) (r : Report) (f : Function) (debug : Option Function) (page : Page Primitive)
    (e : Error) : Prop :=
  highlights f debug page = .error e ∨ ∃ lines, highlights f debug page = .ok lines ∧
    (perform (r.decompile f.name page.recovered) w).1 = .error e

/-- A page that stops leaves no trace in the tree. What it was to be written with does not matter. -/
theorem explorePage_stops (settled : w.Settled) (confined : w.Confined) (plain : '/' ∉ f.name)
    (stops : Stops w r f debug page e) : ∃ w', w'.tree = w.tree ∧ ∀ code count,
      perform (r.explorePage f debug code count page) w = (.error e, w') := by
  rcases stops with highlighted | ⟨lines, highlighted, decompiled⟩
  · refine ⟨w, rfl, fun code count => perform_bind_error ?_⟩
    rw [perform_ofExcept, highlighted]
  · have still : (perform (r.decompile f.name page.recovered) w).2.tree = w.tree :=
      (Toolchain.still_decompile settled confined r.unbroken_assemblyName
        (Path.inner_above_of_unbroken plain 1) _ _).1
    refine ⟨_, still, fun code count => ?_⟩
    have first : perform (Action.ofExcept (highlights f debug page)) w = (.ok lines, w) := by
      rw [perform_ofExcept, highlighted]
    exact (perform_bind_ok first).trans (perform_bind_error (Prod.ext decompiled rfl))

/-- The run of a report comes to a page: all that is done before it was done. -/
structure ComesTo (w₀ : World) (r : Report) (names : List Text) (f : Function)
    (debug : Option Function) (code : Option Text) (page : Page Primitive) (w : World) : Prop where
  found : r.debugFunction f code = .ok debug
  reached : ∃ v prims, ComesToFunction w₀ r names code f v ∧
    ComesToPage r f debug code prims page v w

/-- Where the list of functions is, no page writes. -/
theorem admits_index (tame : w₀.Tame r.config.layouter) (straight : "..".toList ∉ w₀.temporary)
    {I : World → Prop} {function : Text} {hasCode : Bool} :
    r.Admits w₀ (.avoiding w₀ (· = r.indexPlace w₀.directory)) I function
      hasCode page := by
  have apart : ∀ b, lastChar b ≠ some 'l' →
      b ≠ r.indexPlace w₀.directory := by
    rintro b other rfl
    exact other (lastChar_indexPlace r w₀.directory)
  refine ⟨draws_of_image tame.modest (fun _ _ => .inl (apart _ ?_)) (fun _ => .inr (.inl rfl))
    fun _ => trivial, fun pane _ _ => .inl (index_ne_pagePlace _ _ _ _ _).symm, ?_⟩
  · rw [imagePlace, lastChar_imagePlace]
    decide
  · refine Toolchain.staging_apart (s := .avoiding w₀ (· = r.indexPlace w₀.directory))
      tame.confined straight r.unbroken_assemblyName (fun _ => .inr (.inl rfl))
      (fun b content last => .inl (apart b ?_)) (fun _ => trivial) _
    rw [last]
    decide

/-- When a run comes to a page, the list of functions is as it was before the run. -/
theorem ComesTo.leaves (settled : w₀.Settled) (tame : w₀.Tame r.config.layouter) {names : List Text}
    (h : ComesTo w₀ r names f debug code page w) :
    Leaves w₀ (· = r.indexPlace w₀.directory) w := by
  obtain ⟨-, v, prims, ⟨-, w₁, start, source, selected, come⟩, w₂, loaded, reached⟩ := h
  have stable := stable_leaves w₀ (· = r.indexPlace w₀.directory)
  have read := Ensures.of_preserves (preserves_readSource stable) _ _ _
    ⟨settled.rests, fun _ _ => rfl⟩ source
  have chosen := Ensures.of_preserves (preserves_selected stable names) _ _ _ read selected
  have before := come.keeps (fun g _ => preserves_exploreFunction stable
    fun _ _ _ => admits_index tame settled.straight) chosen
  have entered := Ensures.of_preserves (preserves_load stable) _ _ _ before loaded
  exact reached.keeps (fun _ _ => preserves_explorePage stable
    (admits_index tame settled.straight)) entered

/-- A function stops with a page of it. -/
theorem ComesToPage.stops (h : ComesToPage r f debug code prims page w₀ w)
    (found : r.debugFunction f code = .ok debug)
    (stopped : perform (r.explorePage f debug code (Pagination.count prims) page) w = (.error e, w')) :
    perform (r.exploreFunction f code) w₀ = (.error e, w') := by
  obtain ⟨start, loaded, reached⟩ := h
  rw [perform_exploreFunction loaded found]
  exact perform_forM_error_iff.2 ⟨page, w, reached, stopped⟩

/-- A run stops with the page that it comes to. -/
theorem ComesTo.stops {names : List Text} (h : ComesTo w₀ r names f debug code page w)
    (stopped : ∀ count, perform (r.explorePage f debug code count page) w = (.error e, w')) :
    perform (r.explore names) w₀ = (.error e, w') := by
  obtain ⟨found, v, prims, ⟨initialized, w₁, start, source, selected, come⟩, reached⟩ := h
  have failed := perform_forM_error_iff.2
    ⟨f, v, come, reached.stops found (stopped _)⟩
  rw [← filter_isWanted] at failed
  unfold explore
  extract_lets rest
  rw [if_neg (by simpa using initialized)]
  exact perform_bind_error_iff.2 (.inr ⟨code, _, source,
    perform_bind_error_iff.2 (.inr ⟨_, _, selected, perform_bind_error_iff.2 (.inl failed)⟩)⟩)

/-- Without a fault a function has its pages up to the first primitive with a node that names no
block, and that node is what it stops with. A page that stops leaves the tree as it was, and a run
that comes to it stops there and leaves the list of functions as it was. -/
theorem failing_page_leaves_no_trace {text name : Text} {r : Report} {f : Function} {w₀ : World}
    (parsed : Module.ofText text name = .ok r.assembly) (member : f ∈ r.assembly.funcs)
    (named : f.name ≠ []) (plain : '/' ∉ f.name) (ready : r.templates = some Templates.shipped)
    (settled : w₀.Settled) (tame : w₀.Tame r.config.layouter) :
    (∀ code debug prims result w, Loads w₀ r f.name prims → r.debugFunction f code = .ok debug →
      perform (r.exploreFunction f code) w₀ = (result, w) → Faultless result →
      ((∀ prim ∈ prims, Resolves f debug prim) → result = .ok () ∧
        FirstPages w₀ r f debug code prims (2 * prims.length + 1) w) ∧
      ∀ before prim behind, prims = before ++ prim :: behind →
        (∀ p ∈ before, Resolves f debug p) → ¬ Resolves f debug prim →
          (∃ node ∈ prim.nodes, ¬ NodeFound f debug node ∧
            result = .error (.noBlock node f.name)) ∧
          FirstPages w₀ r f debug code prims (2 * before.length + 1) w) ∧
    (∀ debug code count page e, Stops w₀ r f debug page e →
      ∃ w, perform (r.explorePage f debug code count page) w₀ = (.error e, w) ∧
        w.tree = w₀.tree) ∧
    ∀ names debug code page e w₁, ComesTo w₀ r names f debug code page w₁ →
      Stops w₁ r f debug page e →
        ∃ w, perform (r.explore names) w₀ = (.error e, w) ∧ w.tree = w₁.tree ∧
          w.tree.fileAt? (r.indexPlace w₀.directory) =
            w₀.tree.fileAt? (r.indexPlace w₀.directory) := by
  refine ⟨?_, ?_, ?_⟩
  · intro code debug prims result w loads found ran fine
    exact exploreFunction_stops ready (Highlight.located_of_ofText parsed member) settled tame plain
      named loads found ran fine
  · intro debug code count page e stops
    obtain ⟨w, same, stopped⟩ := explorePage_stops settled tame.confined plain stops
    exact ⟨w, stopped code count, same⟩
  · intro names debug code page e w₁ comes stops
    have leaves := comes.leaves settled tame
    have confined : w₁.Confined := by
      unfold Confined
      rw [leaves.rests.stays.respond]
      exact tame.confined
    obtain ⟨w, same, stopped⟩ :=
      explorePage_stops (leaves.rests.settled settled.straight) confined plain stops
    refine ⟨w, comes.stops (stopped code), same, ?_⟩
    rw [same]
    exact leaves.left _ rfl

/-- A function with one block. -/
def stoppingText : Text := "define void @f() \x7b\nb:\n  ret void\n\x7d\n"

/-- A report that is initialized. -/
def stoppingReport (m : Module) : Report where
  path := "r.ll"
  assembly := m
  style := "default"
  templates := some Templates.shipped

/-- A world with one primitive, of a block that is not there. -/
def stoppingWorld : World where
  tree := ⟨[(["r_explore"], .directory), (["r_graphs"], .directory), (["tmp"], .directory),
    (["r_graphs", "f.json"], .file (Utf8.encode "[\x7b\"nodes\": [\"x\"]\x7d]"))]⟩
  temporary := ["tmp"]
  respond := drawingPrograms [1] ""

theorem settled_stoppingWorld : stoppingWorld.Settled :=
  ⟨by decide +kernel, rfl, rfl, by decide⟩

/-- Without names nothing is left out. -/
theorem perform_selected_nil (r : Report) (w : World) :
    perform (r.selected []) w = (.ok (r.assembly.funcs.filter (isWanted [])), w) := by
  have all : r.undefinedNames [] = [] := by simp [undefinedNames, undefinedNames.dedup]
  simp only [selected, isWanted, all, List.isEmpty_nil, Bool.true_or, Bool.not_true,
    List.filter_false]
  rfl

/-- The run comes to the second page, which merges the primitive. -/
theorem comesTo_stoppingWorld :
    ∃ m f, Module.ofText stoppingText = .ok m ∧ f ∈ m.funcs ∧ f.name ≠ [] ∧ '/' ∉ f.name ∧
      stoppingWorld.tree.fileAt? ((stoppingReport m).indexPlace []) = none ∧
      ∃ prim e w, Loads stoppingWorld (stoppingReport m) f.name [prim] ∧ ¬ Resolves f none prim ∧
        highlights f none (Pagination.page [prim] 2) = .error e ∧
        ComesTo stoppingWorld (stoppingReport m) [] f none none (Pagination.page [prim] 2) w ∧
        perform ((stoppingReport m).exploreFunction f none) stoppingWorld = (.error e, w) := by
  obtain ⟨m, f, parsed, member, named, plain, missing, nodes, unnamed, source, only, made⟩ : ∃ m f,
      Module.ofText stoppingText = .ok m ∧ f ∈ m.funcs ∧ f.name ≠ [] ∧ '/' ∉ f.name ∧
      stoppingWorld.tree.fileAt? ((stoppingReport m).indexPlace []) = none ∧
      (perform (PrimitiveFile.load (stoppingReport m).graphs f.name) stoppingWorld).1.toOption.map
        (·.map (·.nodes)) = some [[Text.wide ['x']]] ∧
      ¬ Highlight.Names f (Text.wide ['x']) ∧
      perform (stoppingReport m).readSource stoppingWorld = (.ok none, stoppingWorld) ∧
      (stoppingReport m).written [] = [] ++ f :: [] ∧
      (perform (PrimitiveFile.load (stoppingReport m).graphs f.name >>= fun prims =>
        ((Pagination.pages prims).take 1).forM ((stoppingReport m).explorePage f none none 3))
          stoppingWorld).1.toOption = some () := by
    refine ⟨_, _, by cbv, List.mem_cons_self, by decide +kernel, by decide +kernel, by decide +kernel,
      by decide +kernel, by decide +kernel, by rfl, by rfl, ?_⟩
    -- the templates are spelled out first, which is faster than to let the kernel do it
    simp only [stoppingReport, Templates.shipped, Source.overview, Source.code, Source.assembly,
      Source.graph, Source.decompiled, Source.index, Source.text, List.flatMap_cons,
      List.flatMap_nil]
    repeat rw [String.toList_ofList]
    decide +kernel
  obtain ⟨prims, loaded, nodes⟩ := Option.map_eq_some_iff.1 nodes
  obtain ⟨prim, rfl, node⟩ := List.map_eq_singleton_iff.1 nodes
  have loaded := perform_eq_ok loaded
  have unresolved : ¬ Resolves f none prim := by
    intro resolved
    have unknown : Text.wide ['x'] ∈ prim.nodes := node ▸ List.mem_singleton_self _
    exact unnamed (resolved _ unknown).1
  obtain ⟨e, highlighted⟩ : ∃ e, highlights f none (Pagination.page [prim] 2) = .error e := by
    cases found : highlights f none (Pagination.page [prim] 2) with
    | error e => exact ⟨e, rfl⟩
    | ok lines => exact absurd (resolves_of_highlights found rfl) unresolved
  have made := perform_eq_ok made
  rw [perform_bind_ok loaded] at made
  have pages : Pagination.pages [prim] =
    (Pagination.pages [prim]).take 1 ++ Pagination.page [prim] 2 :: [Pagination.page [prim] 3] := rfl
  have reached : ComesToPage (stoppingReport m) f none none [prim] (Pagination.page [prim] 2)
      stoppingWorld _ := ⟨_, loaded, reaches_iff.2 ⟨_, _, pages, made⟩⟩
  have come : ComesToFunction stoppingWorld (stoppingReport m) [] none f stoppingWorld :=
    ⟨Option.some_ne_none _, _, _, source, perform_selected_nil _ _, reaches_iff.2 ⟨_, _, only, rfl⟩⟩
  have ran := reached.stops rfl
    (perform_bind_error ((perform_ofExcept _ _).trans (by rw [highlighted])))
  exact ⟨m, f, parsed, member, named, plain, missing, prim, e, _, ⟨_, loaded⟩, unresolved,
    highlighted, ⟨rfl, _, _, come, reached⟩, ran⟩

/-- The first page is written before the run stops at the primitive, without a list of functions. -/
theorem failing_page_leaves_no_trace_missing_block :
    ∃ m f, Module.ofText stoppingText = .ok m ∧ f ∈ m.funcs ∧ ∃ prim node w,
      Loads stoppingWorld (stoppingReport m) f.name [prim] ∧
      perform ((stoppingReport m).exploreFunction f none) stoppingWorld =
        (.error (.noBlock node f.name), w) ∧
      FirstPages stoppingWorld (stoppingReport m) f none none [prim] 1 w ∧
      ∃ w', perform ((stoppingReport m).explore []) stoppingWorld =
          (.error (.noBlock node f.name), w') ∧
        w'.tree = w.tree ∧ w'.tree.fileAt? ((stoppingReport m).indexPlace []) = none := by
  obtain ⟨m, f, parsed, member, named, plain, missing, prim, e, w, loads, unresolved, highlighted,
    comes, ran⟩ := comesTo_stoppingWorld
  obtain ⟨stops, -, leaves⟩ := failing_page_leaves_no_trace (r := stoppingReport m) parsed member
    named plain rfl settled_stoppingWorld (tame_of_drawing rfl _)
  -- a node that is not found is no fault
  have fine : Faultless (.error e) := by
    obtain ⟨-, -, -, -, -, rfl⟩ :=
      highlights_eq_error (Highlight.located_of_ofText parsed member) (by nofun) highlighted
    exact fun _ same => Except.error.inj same ▸ id
  obtain ⟨⟨node, -, -, result⟩, written⟩ :=
    (stops none none [prim] _ _ loads rfl ran fine).2 [] prim [] rfl (by simp) unresolved
  obtain rfl := Except.error.inj result
  obtain ⟨w', explored, same, index⟩ := leaves [] none none _ _ w comes (.inl highlighted)
  exact ⟨m, f, parsed, member, prim, node, w, loads, ran, written, w', explored, same,
    index.trans missing⟩

end Report

end FlowReport
