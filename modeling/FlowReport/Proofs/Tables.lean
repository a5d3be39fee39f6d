import FlowReport.Table
import Mathlib.Data.List.Nodup

/-!
# Tables put together

A table updated by another one keeps its keys in their places. What a key leads to then is the new
value, or else the old one, and setting one more key of the other table sets it in the result.
-/

namespace FlowReport

namespace Table

variable {α κ : Type} [DecidableEq κ]

/-- The table with the entries of another one: its own keys stay in their places, with the other
values where there are some, and the keys that are new come behind them. -/
def updated (t u : Table α κ) : Table α κ :=
  t.map (fun e => (e.1, (u.get? e.1).getD e.2)) ++ u.filter fun e => (t.get? e.1).isNone

/-- No key comes twice. -/
def Distinct (t : Table α κ) : Prop := (t.map (·.1)).Nodup

theorem get?_append (t u : Table α κ) (k : κ) :
    get? (t ++ u) k = (get? t k).or (get? u k) := by
  induction t with
  | nil => rfl
  | cons e t ih =>
    simp only [List.cons_append, get?]
    split
    · rfl
    · exact ih

theorem get?_map (f : κ → α → α) (t : Table α κ) (k : κ) :
    get? (t.map fun e => (e.1, f e.1 e.2)) k = (get? t k).map (f k) := by
  induction t with
  | nil => rfl
  | cons e t ih =>
    simp only [List.map_cons, get?]
    split
    · rename_i same
      rw [same]
      rfl
    · exact ih

theorem get?_filter (p : κ → Bool) (t : Table α κ) (k : κ) :
    get? (t.filter fun e => p e.1) k = if p k then get? t k else none := by
  induction t with
  | nil => simp [get?]
  | cons e t ih => grind [get?]

/-- What a key leads to in an updated table: the new value, or else the old one. -/
theorem get?_updated (t u : Table α κ) (k : κ) :
    get? (updated t u) k = (get? u k).or (get? t k) := by
  rw [updated, get?_append, get?_map (fun k v => (get? u k).getD v),
    get?_filter fun k => (get? t k).isNone]
  cases get? t k with
  | none => simp
  | some v => cases get? u k <;> simp

theorem get?_eq_none_iff {t : Table α κ} {k : κ} : get? t k = none ↔ k ∉ t.map (·.1) := by
  induction t with
  | nil => simp [get?]
  | cons e t ih => grind [get?]

/-- A new key comes behind the others. -/
theorem keys_set (t : Table α κ) (k : κ) (v : α) :
    (set t k v).map (·.1) = if k ∈ t.map (·.1) then t.map (·.1) else t.map (·.1) ++ [k] := by
  fun_induction set t k v with
  | case1 => simp
  | case2 v' t k v => simp
  | case3 k' v' t k v ne ih => grind

theorem Distinct.set {t : Table α κ} (h : t.Distinct) (k : κ) (v : α) :
    (set t k v).Distinct := by
  unfold Distinct
  rw [keys_set]
  split
  · exact h
  · rename_i new
    refine List.nodup_append.2 ⟨h, List.nodup_singleton k, ?_⟩
    rintro a ha b hb rfl
    exact new (List.mem_singleton.1 hb ▸ ha)

theorem set_append (t u : Table α κ) (k : κ) (v : α) :
    set (t ++ u) k v = if k ∈ t.map (·.1) then set t k v ++ u else t ++ set u k v := by
  induction t with
  | nil => rfl
  | cons e t ih => grind [set]

/-- Where no key comes twice, a list of entries is its own table. -/
theorem ofList_of_distinct {t : Table α κ} (distinct : t.Distinct) : ofList t = t := by
  suffices behind : ∀ done : Table α κ, Distinct (done ++ t) →
      t.foldl (fun t e => set t e.1 e.2) done = done ++ t from behind [] distinct
  clear distinct
  intro done distinct
  induction t generalizing done with
  | nil => exact (List.append_nil done).symm
  | cons e t ih =>
    have new : e.1 ∉ done.map (·.1) := by
      intro there
      rw [Distinct, List.map_append, List.map_cons] at distinct
      exact (List.nodup_append.1 distinct).2.2 _ there _ List.mem_cons_self rfl
    have step : set done e.1 e.2 = done ++ [e] := by
      have appended := set_append done [] e.1 e.2
      rw [List.append_nil, if_neg new] at appended
      exact appended
    rw [List.foldl_cons, step, ih (done ++ [e]) (by simpa using distinct), List.append_assoc]
    rfl

theorem filter_set (p : κ → Bool) (t : Table α κ) (k : κ) (v : α) :
    (set t k v).filter (fun e => p e.1) =
      if p k then set (t.filter fun e => p e.1) k v else t.filter fun e => p e.1 := by
  fun_induction set t k v with
  | case1 => grind [set]
  | case2 => grind [set]
  | case3 => grind [set]

/-- Where no key comes twice, setting a key that is there changes the one entry. -/
theorem map_set {f g : κ → α → α} {t : Table α κ} {k : κ} {v : α} (distinct : t.Distinct)
    (there : k ∈ t.map (·.1)) (own : ∀ old, g k old = v) (others : ∀ k' ≠ k, g k' = f k') :
    t.map (fun e => (e.1, g e.1 e.2)) = set (t.map fun e => (e.1, f e.1 e.2)) k v := by
  induction t with
  | nil => cases there
  | cons e t ih =>
    obtain ⟨new, distinct⟩ := List.nodup_cons.1 distinct
    rw [List.map_cons, List.map_cons, set]
    by_cases same : e.1 = k
    · subst same
      have rest : ∀ e' ∈ t, g e'.1 = f e'.1 := by
        intro e' member
        apply others
        intro same
        exact new (List.mem_map.2 ⟨e', member, same⟩)
      rw [if_pos rfl, own, List.map_congr_left fun e' member => by rw [rest e' member]]
    · rw [if_neg same, others _ same,
        ih distinct ((List.mem_cons.1 there).resolve_left (Ne.symm same))]

/-- An updated table is updated further by setting the key there. -/
theorem updated_set {t : Table α κ} (distinct : t.Distinct) (u : Table α κ) (k : κ) (v : α) :
    updated t (set u k v) = set (updated t u) k v := by
  have keys : (t.map fun e => (e.1, (get? u e.1).getD e.2)).map (·.1) = t.map (·.1) := by
    rw [List.map_map]
    rfl
  unfold updated
  rw [set_append, keys, filter_set fun k => (get? t k).isNone]
  by_cases there : k ∈ t.map (·.1)
  · have taken : (get? t k).isNone = false := by
      rw [Option.isNone_eq_false_iff, ← Option.ne_none_iff_isSome, ne_eq, get?_eq_none_iff]
      exact not_not_intro there
    rw [if_pos there, taken, if_neg Bool.false_ne_true]
    congr 1
    refine map_set (f := fun k old => (get? u k).getD old)
      (g := fun k' old => (get? (set u k v) k').getD old) distinct there ?_ ?_
    · intro old
      rw [get?_set, if_pos rfl, Option.getD_some]
    · intro k' ne
      funext old
      rw [get?_set, if_neg ne]
  · have free : (get? t k).isNone = true := by
      rw [Option.isNone_iff_eq_none, get?_eq_none_iff]
      exact there
    rw [if_neg there, free, if_pos rfl]
    congr 1
    apply List.map_congr_left
    intro e member
    have ne : e.1 ≠ k := fun same => there (List.mem_map.2 ⟨e, member, same⟩)
    rw [get?_set, if_neg ne]

end Table

end FlowReport
