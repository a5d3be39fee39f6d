import FlowReport.Proofs.BlockRange
import FlowReport.Proofs.Paging
import Mathlib.Data.Set.Function
import Mathlib.Data.Set.Prod
import Mathlib.Order.Interval.Set.Defs

/-!
# The order of the pages

The pages of an analysis run through its places: step 0, and then each step before and after its
merge. Every place has one page, the pages come in the order of the places, and no other number
has a page. Along the pages the recovered primitives grow by the one that a step merges, and by
nothing else.
-/

namespace FlowReport

namespace Pagination

variable {α : Type} {prims : List α}

/-- The places of an analysis with that many steps. -/
def places (steps : Nat) : Set (Nat × SubStep) :=
  insert (0, .initial) (Set.Icc 1 steps ×ˢ {.before, .after})

/-- The numbers of the pages of an analysis with that many steps. -/
def numbers (steps : Nat) : Set Int := {n | 1 ≤ n ∧ n ≤ 2 * steps + 1}

theorem mem_numbers {n : Int} {steps : Nat} : n ∈ numbers steps ↔ 1 ≤ n ∧ n ≤ 2 * steps + 1 :=
  Iff.rfl

/-- One place comes before another: its step does, or its letter within the same step. -/
def Earlier : Nat × SubStep → Nat × SubStep → Prop :=
  Prod.Lex (· < ·) fun s t => s.letter < t.letter

/-- The number of the page that shows a place. -/
def numberAt : Nat × SubStep → Nat
  | (_, .initial) => 1
  | (step, .before) => 2 * step
  | (step, .after) => 2 * step + 1

/-- A page number is found again from its place. -/
theorem numberAt_place {n : Nat} (first : 1 ≤ n) : numberAt (place n) = n := by
  by_cases later : 1 < n
  · rw [place_of_pos later]
    split
    · show 2 * (n / 2) = n
      omega
    · show 2 * (n / 2) + 1 = n
      omega
  · obtain rfl : n = 1 := by omega
    rfl

/-- A place is that of its page. -/
theorem place_numberAt {steps : Nat} {p : Nat × SubStep} (h : p ∈ places steps) :
    place (numberAt p) = p := by
  obtain ⟨step, part⟩ := p
  rcases h with same | ⟨⟨low, -⟩, rfl | rfl⟩
  · rw [same]
    rfl
  · have even : 2 * step % 2 = 0 := by omega
    have half : 2 * step / 2 = step := by omega
    have later : 1 < 2 * step := by
      have : 1 ≤ step := low
      omega
    rw [numberAt, place_of_pos later, if_pos even, half]
  · have odd : ¬ (2 * step + 1) % 2 = 0 := by omega
    have half : (2 * step + 1) / 2 = step := by omega
    have later : 1 < 2 * step + 1 := by
      have : 1 ≤ step := low
      omega
    rw [numberAt, place_of_pos later, if_neg odd, half]

/-- The pages of an analysis show its places. -/
theorem place_mem_places {n steps : Nat} (first : 1 ≤ n) (last : n ≤ 2 * steps + 1) :
    place n ∈ places steps := by
  rcases first.eq_or_lt with rfl | later
  · exact .inl rfl
  · rw [place_of_pos later]
    refine .inr ⟨⟨?_, ?_⟩, ?_⟩
    · show 1 ≤ n / 2
      omega
    · show n / 2 ≤ steps
      omega
    · show (if _ then _ else _) = _ ∨ (if _ then _ else _) = _
      split
      · exact .inl rfl
      · exact .inr rfl

/-- The page of a place is one of the analysis. -/
theorem numberAt_range {steps : Nat} {p : Nat × SubStep} (h : p ∈ places steps) :
    1 ≤ numberAt p ∧ numberAt p ≤ 2 * steps + 1 := by
  obtain ⟨step, part⟩ := p
  rcases h with same | ⟨⟨low, high⟩, rfl | rfl⟩
  · obtain ⟨rfl, rfl⟩ := Prod.mk.inj same
    exact ⟨Nat.le_refl 1, Nat.le_add_left 1 _⟩
  · have low : 1 ≤ step := low
    have high : step ≤ steps := high
    simp only [numberAt]
    omega
  · have low : 1 ≤ step := low
    have high : step ≤ steps := high
    simp only [numberAt]
    omega

/-- A later page shows a later place. -/
theorem earlier_place {m n : Nat} (first : 1 ≤ m) (later : m < n) :
    Earlier (place m) (place n) := by
  have second : 1 < n := by omega
  by_cases start : m = 1
  · rw [start, place_of_pos second]
    exact .left _ _ (show 0 < n / 2 by omega)
  · rw [place_of_pos (show 1 < m by omega), place_of_pos second]
    by_cases same : m / 2 = n / 2
    · -- two pages of one step: the even one is before the merge
      have even : m % 2 = 0 := by omega
      have odd : ¬ n % 2 = 0 := by omega
      rw [same, if_pos even, if_neg odd]
      exact .right _ (by decide)
    · exact .left _ _ (show m / 2 < n / 2 by omega)

/-- A number has a place if it is that of a page. -/
theorem place?_eq_ok_iff {n : Int} {p : Nat × SubStep} : place? n prims = .ok p ↔
    n ∈ numbers prims.length ∧ p = place n.toNat := by
  have bound : ((count prims : Nat) : Int) = 2 * prims.length + 1 := by
    rw [count]
    omega
  unfold place?
  rw [bound, mem_numbers]
  split
  · rename_i inside
    simp [inside, eq_comm]
  · rename_i outside
    simp [outside]

/-- Every other number is refused. -/
theorem place?_eq_error_iff {n : Int} :
    place? n prims = .error (.pageOutOfRange n (2 * prims.length + 1)) ↔
      n ∉ numbers prims.length := by
  have bound : count prims = 2 * prims.length + 1 := Nat.add_comm _ _
  unfold place?
  rw [bound, mem_numbers]
  push_cast
  split
  · rename_i inside
    simp [inside]
  · rename_i outside
    simp [outside]

/-- The numbers of the pages and the places correspond to each other. -/
theorem bijOn_place? : Set.BijOn (fun n : Int => place? n prims) (numbers prims.length)
    (Except.ok '' places prims.length) := by
  refine ⟨?_, ?_, ?_⟩
  · intro n inside
    refine ⟨place n.toNat, place_mem_places ?_ ?_, (place?_eq_ok_iff.2 ⟨inside, rfl⟩).symm⟩
    · have low := inside.1
      omega
    · have high := inside.2
      omega
  · intro m hm n hn same
    have hm' := place?_eq_ok_iff.2 ⟨hm, rfl⟩
    have hn' := place?_eq_ok_iff.2 ⟨hn, rfl⟩
    have same : place m.toNat = place n.toNat := Except.ok.inj (hm'.symm.trans (same.trans hn'))
    have low := hm.1
    have low' := hn.1
    have numbers : m.toNat = n.toNat := by
      rw [← numberAt_place (n := m.toNat) (by omega), same, numberAt_place (by omega)]
    omega
  · rintro _ ⟨p, there, rfl⟩
    obtain ⟨low, high⟩ := numberAt_range there
    refine ⟨(numberAt p : Nat), ⟨by omega, by omega⟩, place?_eq_ok_iff.2 ⟨⟨by omega, by omega⟩, ?_⟩⟩
    rw [Int.toNat_natCast, place_numberAt there]

/-- The primitive of a step is found at its position. -/
theorem active?_step {step : Nat} (inside : step ≤ prims.length) :
    active? step prims = .ok (active step prims) := by
  unfold active? active
  by_cases zero : step = 0
  · rw [if_pos (by omega), if_pos zero]
  · have position : (step : Int) - 1 = (step - 1 : Nat) := by omega
    have there : step - 1 < prims.length := by omega
    have item : itemAt? prims ((step : Int) - 1) = some prims[step - 1] := by
      rw [position, itemAt?, if_neg (by omega), if_neg (by omega), Int.toNat_natCast,
        List.getElem?_eq_getElem there]
    rw [if_neg (by omega), if_neg zero]
    simp only [item]
    rw [List.getElem?_eq_getElem there]

/-- The pages are those of the numbers, in order. -/
theorem pages_eq_map (prims : List α) :
    pages prims = (List.range' 1 (2 * prims.length + 1)).map (page prims) := by
  rw [pages, count, Nat.add_comm 1, List.range'_eq_map_range, List.map_map]
  refine List.map_congr_left fun k _ => ?_
  rw [Function.comp_apply, Nat.add_comm]

/-- Nothing stops the making of the pages. -/
theorem pages?_eq (prims : List α) : pages? prims = .ok (pages prims) := by
  have bound : count prims = 2 * prims.length + 1 := Nat.add_comm _ _
  rw [pages?, pages_eq_map, bound, Highlight.mapM_eq_ok_map_iff]
  intro n member
  obtain ⟨low, high⟩ : 1 ≤ n ∧ n < 1 + (2 * prims.length + 1) := by simpa using member
  have placed : place? n prims = .ok (place n) :=
    place?_eq_ok_iff.2 ⟨⟨by omega, by omega⟩, by rw [Int.toNat_natCast]⟩
  have step : (place n).1 ≤ prims.length := by
    rw [place]
    split
    · exact Nat.zero_le _
    · show (n - 1 + 1) / 2 ≤ _
      omega
  exact bind_eq_ok.2 ⟨_, placed, bind_eq_ok.2 ⟨_, active?_step step, rfl⟩⟩

/-- The two pages of a step: both are about its primitive, the first one shows what the page before
it does, and the second one has the primitive too. -/
theorem pages_of_step {k : Nat} {prim : α} (first : 1 ≤ k) (merged : prims[k - 1]? = some prim) :
    (page prims (2 * k)).active = some prim ∧ (page prims (2 * k + 1)).active = some prim ∧
      (page prims (2 * k)).recovered = (page prims (2 * k - 1)).recovered ∧
      (page prims (2 * k + 1)).recovered = (page prims (2 * k)).recovered ++ [prim] := by
  have before : 2 * k / 2 - 1 = k - 1 := by omega
  have after : (2 * k + 1) / 2 - 1 = k - 1 := by omega
  refine ⟨?_, ?_, ?_, ?_⟩
  · rw [active_page prims (by omega), if_neg (by omega), before, merged]
  · rw [active_page prims (by omega), if_neg (by omega), after, merged]
  · have same : (2 * k - 1) / 2 = (2 * k - 1 - 1) / 2 := by omega
    rw [recovered_page prims (by omega), recovered_page prims (by omega), same]
  · have shown : (2 * k + 1 - 1) / 2 = k - 1 + 1 := by omega
    have earlier : (2 * k - 1) / 2 = k - 1 := by omega
    rw [recovered_page prims (by omega), recovered_page prims (by omega), shown, earlier,
      List.take_add_one, merged]
    rfl

/-- **The pages follow the analysis.** They are made without an error and numbered from one; a number
has a place if it is that of a page, and is refused otherwise; places and pages correspond to each
other, in order. The first page has recovered nothing, the two pages of a step are about its
primitive and have it recovered between them, and the last page has recovered all. -/
theorem pages_follow_analysis (prims : List α) :
    pages? prims = .ok (pages prims) ∧
    pages prims = (List.range' 1 (2 * prims.length + 1)).map (page prims) ∧
    (pages prims).map (·.number) = List.range' 1 (2 * prims.length + 1) ∧
    Set.BijOn (fun n : Int => place? n prims) (numbers prims.length)
      (Except.ok '' places prims.length) ∧
    (∀ m n p q, place? m prims = .ok p → place? n prims = .ok q → m < n → Earlier p q) ∧
    (∀ n, place? n prims = .error (.pageOutOfRange n (2 * prims.length + 1)) ↔
      n ∉ numbers prims.length) ∧
    (page prims 1).recovered = [] ∧ (page prims 1).active = none ∧
    (∀ k prim, 1 ≤ k → prims[k - 1]? = some prim →
      (page prims (2 * k)).active = some prim ∧ (page prims (2 * k + 1)).active = some prim ∧
      (page prims (2 * k)).recovered = (page prims (2 * k - 1)).recovered ∧
      (page prims (2 * k + 1)).recovered = (page prims (2 * k)).recovered ++ [prim]) ∧
    (page prims (2 * prims.length + 1)).recovered = prims := by
  refine ⟨pages?_eq prims, pages_eq_map prims, ?_, bijOn_place?, ?_, fun n => place?_eq_error_iff,
    ?_, ?_, fun k prim first merged => pages_of_step first merged, ?_⟩
  · rw [pages_eq_map, List.map_map]
    exact List.map_id'' (fun n => number_page prims n) _
  · intro m n p q hm hn later
    obtain ⟨⟨low, -⟩, rfl⟩ := place?_eq_ok_iff.1 hm
    obtain ⟨-, rfl⟩ := place?_eq_ok_iff.1 hn
    exact earlier_place (by omega) (by omega)
  · rw [recovered_page prims (Nat.le_refl 1), List.take_zero]
  · rw [active_page prims (Nat.le_refl 1), if_pos rfl]
  · have all : (2 * prims.length + 1 - 1) / 2 = prims.length := by omega
    rw [recovered_page prims (by omega), all, List.take_length]

/-- Two primitives: the pages of the first step lie before the last page, and the second one is
recovered between the last two pages. -/
theorem pages_follow_two_steps :
    place? 3 [7, 9] = .ok (1, .after) ∧ place? 5 [7, 9] = .ok (2, .after) ∧
      Earlier (1, .after) (2, .after) ∧
      (page [7, 9] 5).recovered = (page [7, 9] 4).recovered ++ [9] := by
  obtain ⟨-, -, -, -, ordered, -, -, -, steps, -⟩ := pages_follow_analysis [7, 9]
  exact ⟨rfl, rfl, ordered 3 5 _ _ rfl rfl (by decide), (steps 2 9 (by decide) rfl).2.2.2⟩

end Pagination

end FlowReport
