import FlowReport.FileTree
import Mathlib.Data.List.Infix

/-!
# Places in a file tree

Where a path leads does not depend on the tree, only whether it leads there: `place` is the address
and `Reached` says that all places above an address are directories. A tree `Holds` a node if it is
at such an address.
-/

namespace FlowReport.FileTree

/-- The address that a name leads to. -/
def down (here : Address) (name : Text) : Address :=
  if name = "..".toList then here.dropLast else here ++ [name]

/-- The address that a path leads to, seen from `start`. -/
def place (start : Address) (p : Path) : Address :=
  p.names.foldl down (if p.root = .relative then start else [])

/-- All places above an address are directories. -/
def Reached (t : FileTree) (a : Address) : Prop :=
  ∀ b, b <+: a → b ≠ a → t.get? b = some .directory

instance (t : FileTree) (a : Address) : Decidable (t.Reached a) :=
  decidable_of_iff (∀ b ∈ a.inits, b ≠ a → t.get? b = some .directory)
    (forall_congr' fun b => by rw [List.mem_inits])

theorem Reached.above {t : FileTree} {a b : Address} (h : t.Reached a) (above : b <+: a) :
    t.Reached b := by
  intro c hc ne
  refine h c (hc.trans above) fun same => ne ?_
  subst same
  exact (List.IsPrefix.eq_of_length_le hc above.length_le)

theorem Reached.below {t : FileTree} {a : Address} (h : t.Reached a)
    (directory : t.get? a = some .directory) (name : Text) : t.Reached (a ++ [name]) := by
  intro b hb ne
  rcases List.prefix_concat_iff.1 hb with same | hb
  · exact absurd same ne
  · by_cases same : b = a
    · rw [same, directory]
    · exact h b hb same

theorem reached_root (t : FileTree) : t.Reached [] := by
  intro b hb ne
  exact absurd (List.prefix_nil.1 hb) ne

/-- A walk ends at the address that its names lead to, below directories only. -/
theorem walk_ok {t : FileTree} {here a : Address} {names : List Text} (reached : t.Reached here)
    (h : t.walk here names = .ok a) : a = names.foldl down here ∧ t.Reached a := by
  induction names generalizing here with
  | nil =>
    cases h
    exact ⟨rfl, reached⟩
  | cons name names ih =>
    rw [walk] at h
    split at h
    · cases h
    · cases h
    · rename_i directory
      split at h
      · cases h
      · refine ih ?_ h
        unfold down
        split
        · exact reached.above (List.dropLast_prefix _)
        · exact reached.below directory name

theorem resolve_ok {t : FileTree} {start a : Address} {p : Path} (home : t.Reached start)
    (h : t.resolve start p = .ok a) : a = place start p ∧ t.Reached a := by
  unfold resolve at h
  split at h
  · cases h
  · refine walk_ok ?_ h
    split
    · exact home
    · exact reached_root t

/-- A node at an address that can be reached. -/
structure Holds (t : FileTree) (a : Address) (node : Node) : Prop where
  node : t.get? a = some node
  reached : t.Reached a

namespace Holds

variable {t : FileTree} {a b : Address} {node : Node}

/-- No place on the way is free. -/
theorem not_above_of_free (h : t.Holds a node) (free : t.get? b = none) : ¬ b <+: a := by
  intro above
  by_cases same : b = a
  · rw [same, h.node] at free
    cases free
  · rw [h.reached b above same] at free
    cases free

end Holds

end FlowReport.FileTree
