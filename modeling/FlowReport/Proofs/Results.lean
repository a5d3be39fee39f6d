import Mathlib.Data.List.Forall2

/-!
# Results that may be errors

When a computation made of others succeeds, and where it stops if it does not: at the first of its
parts that fails, with the error of that part.
-/

namespace FlowReport

variable {ε α β : Type}

/-- A computation with a second step succeeds if both steps do. -/
theorem bind_eq_ok {x : Except ε α} {f : α → Except ε β} {b : β} :
    x >>= f = .ok b ↔ ∃ a, x = .ok a ∧ f a = .ok b := by
  cases x with
  | error e => simp [bind, Except.bind]
  | ok a => simp [bind, Except.bind]

/-- It fails if one of the steps does. -/
theorem bind_eq_error {x : Except ε α} {f : α → Except ε β} {e : ε} :
    x >>= f = .error e ↔ x = .error e ∨ ∃ a, x = .ok a ∧ f a = .error e := by
  cases x with
  | error e => simp [bind, Except.bind]
  | ok a => simp [bind, Except.bind]

/-- Changing what a computation gives changes nothing about its success. -/
theorem map_eq_ok {x : Except ε α} {f : α → β} {b : β} :
    x.map f = .ok b ↔ ∃ a, x = .ok a ∧ f a = b := by
  cases x with
  | error e => simp [Except.map]
  | ok a => simp [Except.map]

/-- Two computations fail alike, or both succeed and their results are related. -/
inductive Alike (R : α → α → Prop) : Except ε α → Except ε α → Prop where
  | error (e : ε) : Alike R (.error e) (.error e)
  | ok {a b : α} (related : R a b) : Alike R (.ok a) (.ok b)

/-- A list of computations succeeds with one value for each member. -/
theorem mapM_eq_ok_iff {g : α → Except ε β} {l : List α} {bs : List β} :
    l.mapM g = .ok bs ↔ List.Forall₂ (fun a b => g a = .ok b) l bs := by
  induction l generalizing bs with
  | nil =>
    constructor
    · rintro ⟨⟩
      exact .nil
    · rintro ⟨⟩
      rfl
  | cons a l ih =>
    rw [List.mapM_cons, bind_eq_ok, List.forall₂_cons_left_iff]
    constructor
    · rintro ⟨b, first, h⟩
      obtain ⟨bs, rest, h⟩ := bind_eq_ok.1 h
      cases h
      exact ⟨b, bs, first, ih.1 rest, rfl⟩
    · rintro ⟨b, bs, first, rest, rfl⟩
      exact ⟨b, first, bind_eq_ok.2 ⟨bs, ih.2 rest, rfl⟩⟩

theorem exists_mapM_eq_ok_iff {g : α → Except ε β} {l : List α} :
    (∃ bs, l.mapM g = .ok bs) ↔ ∀ a ∈ l, ∃ b, g a = .ok b := by
  simp only [mapM_eq_ok_iff]
  induction l with
  | nil => simp
  | cons a l ih =>
    rw [List.forall_mem_cons, ← ih]
    constructor
    · rintro ⟨_, h⟩
      obtain ⟨b, bs, first, rest, -⟩ := List.forall₂_cons_left_iff.1 h
      exact ⟨⟨b, first⟩, bs, rest⟩
    · rintro ⟨⟨b, first⟩, bs, rest⟩
      exact ⟨b :: bs, .cons first rest⟩

/-- The values are those that the members give. -/
theorem mem_of_mapM_eq_ok {g : α → Except ε β} {l : List α} {bs : List β} (h : l.mapM g = .ok bs)
    {b : β} : b ∈ bs ↔ ∃ a ∈ l, g a = .ok b := by
  induction mapM_eq_ok_iff.1 h with
  | nil => simp
  | cons first rest ih =>
    rw [List.mem_cons, ih (mapM_eq_ok_iff.2 rest), List.exists_mem_cons_iff, first,
      Except.ok.injEq, eq_comm]

/-- It stops at the first member that fails. -/
theorem mapM_eq_error_iff {g : α → Except ε β} {l : List α} {e : ε} :
    l.mapM g = .error e ↔ ∃ before a behind, l = before ++ a :: behind ∧
      (∀ other ∈ before, ∃ b, g other = .ok b) ∧ g a = .error e := by
  induction l with
  | nil =>
    constructor
    · nofun
    · rintro ⟨before, a, behind, split, -⟩
      cases before <;> cases split
  | cons a l ih =>
    rw [List.mapM_cons, bind_eq_error]
    constructor
    · rintro (failed | ⟨b, first, h⟩)
      · exact ⟨[], a, l, rfl, nofun, failed⟩
      rcases bind_eq_error.1 h with rest | ⟨bs, -, h⟩
      · obtain ⟨before, stop, behind, rfl, passed, failed⟩ := ih.1 rest
        exact ⟨a :: before, stop, behind, rfl, List.forall_mem_cons.2 ⟨⟨b, first⟩, passed⟩, failed⟩
      · cases h
    · rintro ⟨before, stop, behind, split, passed, failed⟩
      cases before with
      | nil =>
        cases split
        exact .inl failed
      | cons other before =>
        cases split
        obtain ⟨⟨b, first⟩, passed⟩ := List.forall_mem_cons.1 passed
        refine .inr ⟨b, first, bind_eq_error.2 (.inl ?_)⟩
        exact ih.2 ⟨before, stop, behind, rfl, passed, failed⟩

end FlowReport
