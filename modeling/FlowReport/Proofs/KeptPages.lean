import FlowReport.Proofs.Completeness

/-!
# Pages that are kept

Two files of pages have one name if the one is the overview of a function that is named like the
other function with the tag of a pane. In a run without such functions all files have places of
their own, and each holds at the end what was made for it. In a run with them the file that is written
later replaces the other one.
-/

namespace FlowReport.Report

open Assembly FileTree FlowReport.Action World

/-- A world that the pages of a report can be written in: its directories are there and no program
writes a page. -/
structure Ready (w₀ : World) (r : Report) (names : List Text) : Prop where
  home : w₀.tree.Holds w₀.directory .directory
  straight : "..".toList ∉ w₀.temporary
  spares : ∀ f ∈ r.written names, ∀ pane page,
    w₀.Spares (r.pagePlace w₀.directory f.name pane page)

/-- The run of a function that starts in the world `v` finds what was there before the run of the
report: the primitives, and the graphs of the pages. -/
structure FindsSame (w₀ : World) (r : Report) (code : Option Text) (f : Function) (v : World) :
    Prop where
  loads : ∀ prims, Loads v r f.name prims ↔ Loads w₀ r f.name prims
  placed : ∀ {debug prims page start u found}, ComesToPage r f debug code prims page v start →
    Finds r f debug code (Pagination.count prims) page start u found →
      Placed f.name page (r.Graphed f.name page w₀) found.graph

/-- Modest programs leave everything that a function is made from as it was. -/
theorem ComesToFunction.findsSame {w₀ v : World} {r : Report} {f : Function} {code : Option Text}
    {names : List Text} (h : ComesToFunction w₀ r names code f v)
    (modest : w₀.Modest r.config.layouter) (straight : "..".toList ∉ w₀.temporary)
    (plain : ∀ g ∈ r.written names, g.name ≠ [] ∧ '/' ∉ g.name) (member : f ∈ r.written names)
    (ground : Grounded w₀ r w₀) : FindsSame w₀ r code f v := by
  have unbroken : ∀ g ∈ r.written names, '/' ∉ g.name := fun g member => (plain g member).2
  have here := h.grounded modest straight unbroken ground
  refine ⟨fun _ => ground.loads here (unbroken f member), ?_⟩
  intro debug prims page start u found comes finds
  exact finds.placed_before modest ground straight (unbroken f member) (plain f member).1
    (comes.grounded modest straight (unbroken f member) here)

/-- When files of pages have one name, when they have one place in a run that succeeds, and that the
run leaves in them what it made for them if they have not. It makes each page from what it finds where
it comes to it, which is what was there before the run if the programs write nothing else than they
are asked for. -/
theorem explore_keeps_pages {r : Report} {names done : List Text} {w₀ w : World}
    (nodup : (r.assembly.funcs.map (·.name)).Nodup) (ready : Ready w₀ r names)
    (ran : perform (r.explore names) w₀ = (.ok done, w)) :
    (∀ (f g : Text) (k l : Pane) (p q : Nat), k.fileName f p = l.fileName g q ↔
      ((f = g ∧ k = l) ∨ Pane.Clash f k g l ∨ Pane.Clash g l f k) ∧ p = q) ∧
    done = (r.written names).map (·.name) ∧ ∃ code,
      (∃ w₁, perform r.readSource w₀ = (.ok code, w₁)) ∧
      (Apart r w₀.directory done code.isSome ↔ Untagged r w₀.directory done code.isSome) ∧
      (Untagged r w₀.directory done code.isSome → ∀ f ∈ r.written names, ∃ v,
        ComesToFunction w₀ r names code f v ∧ Written w₀ r code f v w) ∧
      (w₀.Settled → w₀.Modest r.config.layouter →
        (∀ f ∈ r.written names, f.name ≠ [] ∧ '/' ∉ f.name) →
          ∀ f ∈ r.written names, ∀ v, ComesToFunction w₀ r names code f v →
            FindsSame w₀ r code f v) := by
  have stays : Stays w₀ w₀ := ⟨rfl, rfl, rfl, ready.home, ready.home⟩
  have distinct : (r.written names).Pairwise fun f g => f.name ≠ g.name :=
    (List.pairwise_map.1 nodup).filter _
  obtain ⟨rfl, code, start, behind, explored⟩ := explored_of_explore ran
  obtain ⟨w₁, read, -⟩ := explored.source
  refine ⟨fun f g k l p q => Pane.fileName_same_iff, rfl, code, ⟨w₁, read⟩, apart_iff, ?_, ?_⟩
  · intro tags
    exact explored.written stays ready.straight ready.spares distinct (apart_iff.2 tags)
  · intro settled modest plain f member v comes
    have ground := explored.grounded settled modest.confined fun f member => (plain f member).2
    exact comes.findsSame modest ready.straight plain member ground

/-- Three functions, two of them named like the third one with the tag of a pane. -/
def taggedText : Text :=
  "define void @a_c() \x7b\nret void\n\x7d\ndefine void @a_llvm() \x7b\nret void\n\x7d\n" ++
    "define void @a() \x7b\nret void\n\x7d\n"

/-- A report with short templates. -/
def taggedReport (m : Module) : Report where
  path := "r.ll"
  assembly := m
  style := "default"
  templates := some [
    ("overview", "overview of $func_name"), ("llvm", "assembly of $func_name"),
    ("cfa", "graph of $func_name"), ("go", "code of $func_name"), ("index", "$funcs_html")]

/-- A world in which no primitives are recovered, there is no source code, and programs do
nothing. -/
def taggedWorld : World where
  tree := ⟨[(["r_explore"], .directory), (["r_graphs"], .directory), (["tmp"], .directory),
    (["r_graphs", "a_c.json"], .file (Utf8.encode "[]")),
    (["r_graphs", "a_llvm.json"], .file (Utf8.encode "[]")),
    (["r_graphs", "a.json"], .file (Utf8.encode "[]"))]⟩
  temporary := ["tmp"]
  respond _ := some {}

theorem idle_taggedWorld : taggedWorld.Idle := by
  rintro call outcome ⟨⟩
  rfl

theorem ready_taggedWorld (r : Report) (names : List Text) : Ready taggedWorld r names where
  home := ⟨rfl, reached_root _⟩
  straight := by decide
  spares _ _ _ _ := idle_taggedWorld.spares _

theorem settled_taggedWorld : taggedWorld.Settled :=
  ⟨by decide +kernel, rfl, rfl, by decide⟩

/-- Without source code there is no pane that `a_c` could be taken for, and all four files of each page
are there. -/
theorem explore_keeps_pages_without_code :
    ∃ m, Module.ofText taggedText = .ok m ∧ ∃ w,
      perform ((taggedReport m).explore ["a_c", "a"]) taggedWorld = (.ok ["a_c", "a"], w) ∧
      (w.tree.filesBelow ["r_explore"]).length = 9 ∧
      ∀ f ∈ (taggedReport m).written ["a_c", "a"], ∃ v,
        ComesToFunction taggedWorld (taggedReport m) ["a_c", "a"] none f v ∧
        FindsSame taggedWorld (taggedReport m) none f v ∧
        Written taggedWorld (taggedReport m) none f v w := by
  obtain ⟨m, parsed, nodup, plain, ran, count, source⟩ : ∃ m, Module.ofText taggedText = .ok m ∧
      (m.funcs.map (·.name)).Nodup ∧ (∀ f ∈ m.funcs, f.name ≠ [] ∧ '/' ∉ f.name) ∧
      (perform ((taggedReport m).explore ["a_c", "a"]) taggedWorld).1.toOption =
        some ["a_c".toList, "a"] ∧
      ((perform ((taggedReport m).explore ["a_c", "a"]) taggedWorld).2.tree.filesBelow
        ["r_explore"]).length = 9 ∧
      (perform (taggedReport m).readSource taggedWorld).1.toOption = some none :=
    ⟨_, by cbv, by decide +kernel, by decide +kernel, by decide +kernel, by decide +kernel,
      by decide +kernel⟩
  obtain ⟨-, -, code, ⟨w₁, read⟩, -, kept, same⟩ :=
    explore_keeps_pages nodup (ready_taggedWorld _ _) (perform_eq_ok ran)
  rw [read] at source
  cases source
  have tags : Untagged (taggedReport m) taggedWorld.directory ["a_c", "a"] false :=
    (untagged_iff_of_unbroken (by decide)).2 (by decide)
  refine ⟨m, parsed, _, perform_eq_ok ran, count, ?_⟩
  intro f member
  obtain ⟨v, comes, written⟩ := kept tags f member
  exact ⟨v, comes, same settled_taggedWorld (idle_taggedWorld.modest _)
    (of_mem_written _ plain) f member v comes, written⟩

/-- With `a_llvm` and `a`, the assembly of the second one overwrites the overview of the first
one. -/
theorem explore_overwrites_overview :
    ∃ m, Module.ofText taggedText = .ok m ∧ (m.funcs.map (·.name)).Nodup ∧ ∃ w,
      perform ((taggedReport m).explore ["a_llvm", "a"]) taggedWorld = (.ok ["a_llvm", "a"], w) ∧
      Pane.fileName "a_llvm" .overview 1 = Pane.fileName "a" .assembly 1 ∧
      ((taggedReport m).render "overview" ((taggedReport m).overviewFields "a_llvm"
        (Pagination.page [] 1) 1 false)).toOption = some (Text.wide "overview of a_llvm") ∧
      w.tree.get? ["r_explore", Pane.fileName "a_llvm" .overview 1] =
        some (.file (Utf8.encode "assembly of a")) := by
  refine ⟨_, by cbv, by decide +kernel, _, perform_eq_ok (by decide +kernel), by decide, ?_⟩
  constructor <;> decide +kernel

end FlowReport.Report
